import Mathlib.Data.List.Basic

/-!
# Token sequences with a separator

A tree is written down in prefix order.  A token that ends a branch is followed by a separator
before the next token; after any other token the next one follows at once.  If a reader finds
each token back from what may follow it, the text determines the sequence.
-/

namespace Disp.Library.Tokens

variable {T : Type}

/-- How tokens are written, which of them end a branch, and which of them occur. -/
structure Lexicon (T : Type) where
  text : T → List Char
  leaf : T → Bool
  valid : T → Prop

namespace Lexicon

variable (lexicon : Lexicon T) {token : T} {tokens first second : List T}

/-- The text of a sequence. -/
def render : List T → List Char
  | [] => []
  | [token] => lexicon.text token
  | token :: next :: tokens =>
    lexicon.text token ++
      if lexicon.leaf token then '_' :: render (next :: tokens) else render (next :: tokens)

def Complete : List T → Prop
  | [] => True
  | [token] => lexicon.valid token ∧ lexicon.leaf token = true
  | token :: next :: tokens => lexicon.valid token ∧ Complete (next :: tokens)

/-- The text of a token, with anything after it. -/
def Starts (text : List Char) : Prop :=
  ∃ token rest, lexicon.valid token ∧ text = lexicon.text token ++ rest

/-- What may follow a token. -/
def Follows (token : T) (text : List Char) : Prop :=
  if lexicon.leaf token then text = [] ∨ ∃ rest, text = '_' :: rest ∧ lexicon.Starts rest
  else lexicon.Starts text

def after (token : T) (tokens : List T) : List Char :=
  match tokens with
  | [] => []
  | _ :: _ => if lexicon.leaf token then '_' :: lexicon.render tokens else lexicon.render tokens

variable {lexicon}

theorem render_cons (token : T) (tokens : List T) :
    lexicon.render (token :: tokens) = lexicon.text token ++ lexicon.after token tokens := by
  cases tokens with
  | nil => simp [render, after]
  | cons next tokens => rfl

theorem Complete.valid (h : lexicon.Complete (token :: tokens)) : lexicon.valid token := by
  cases tokens with
  | nil | cons next tokens => exact h.1

theorem Complete.tail {token : T} {tokens : List T} (h : lexicon.Complete (token :: tokens)) :
    lexicon.Complete tokens := by
  cases tokens with
  | nil => trivial
  | cons next tokens => exact h.2

theorem Complete.starts (h : lexicon.Complete (token :: tokens)) :
    lexicon.Starts (lexicon.render (token :: tokens)) :=
  ⟨token, lexicon.after token tokens, h.valid, render_cons token tokens⟩

theorem Complete.follows (h : lexicon.Complete (token :: tokens)) :
    lexicon.Follows token (lexicon.after token tokens) := by
  unfold Follows
  cases tokens with
  | nil =>
    rw [if_pos h.2]
    exact .inl rfl
  | cons next tokens =>
    by_cases hleaf : lexicon.leaf token = true
    · rw [if_pos hleaf]
      exact .inr ⟨_, by simp [after, hleaf], h.tail.starts⟩
    · simp only [after, hleaf]
      exact h.tail.starts

theorem Complete.append (h : lexicon.Complete first) (h' : lexicon.Complete second) :
    lexicon.Complete (first ++ second) := by
  induction first with
  | nil => exact h'
  | cons token tokens ih =>
    have htail := ih h.tail
    cases tokens with
    | nil =>
      cases second with
      | nil => exact h
      | cons next second => exact ⟨h.1, h'⟩
    | cons next tokens => exact ⟨h.1, htail⟩

theorem render_append (h : lexicon.Complete first) (hfirst : first ≠ []) (hsecond : second ≠ []) :
    lexicon.render (first ++ second) = lexicon.render first ++ '_' :: lexicon.render second := by
  induction first with
  | nil => exact absurd rfl hfirst
  | cons token tokens ih =>
    cases tokens with
    | nil =>
      cases second with
      | nil => exact absurd rfl hsecond
      | cons next second => simp [render, h.2]
    | cons next tokens =>
      have htail := ih h.tail (by simp)
      simp only [List.cons_append] at htail ⊢
      simp only [render, htail]
      split <;> simp

/-- A reader that finds every token back makes the text determine the sequence. -/
theorem render_injective {read : List Char → Option (T × List Char)}
    (hread : ∀ token rest, lexicon.valid token → lexicon.Follows token rest →
      read (lexicon.text token ++ rest) = some (token, rest))
    (htext : ∀ token, lexicon.valid token → lexicon.text token ≠ []) (h : lexicon.Complete first)
    (h' : lexicon.Complete second) (heq : lexicon.render first = lexicon.render second) :
    first = second := by
  have hnonempty {token : T} {tokens : List T} (h : lexicon.Complete (token :: tokens)) :
      lexicon.render (token :: tokens) ≠ [] := by
    rw [render_cons]
    simp [htext token h.valid]
  induction first generalizing second with
  | nil =>
    cases second with
    | nil => rfl
    | cons token tokens => exact absurd heq.symm (hnonempty h')
  | cons token tokens ih =>
    cases second with
    | nil => exact absurd heq (hnonempty h)
    | cons token' tokens' =>
      rw [render_cons, render_cons] at heq
      have hfound := hread token _ h.valid h.follows
      rw [heq, hread token' _ h'.valid h'.follows] at hfound
      obtain ⟨rfl, hafter⟩ := Prod.mk.inj (Option.some.inj hfound)
      cases tokens with
      | nil =>
        cases tokens' with
        | nil => rfl
        | cons next' tokens' =>
          have hne := hnonempty h'.tail
          simp only [after] at hafter
          split at hafter
          · cases hafter
          · exact absurd hafter hne
      | cons next tokens =>
        cases tokens' with
        | nil =>
          have hne := hnonempty h.tail
          simp only [after] at hafter
          split at hafter
          · cases hafter
          · exact absurd hafter.symm hne
        | cons next' tokens' =>
          have hrender : lexicon.render (next :: tokens) =
              lexicon.render (next' :: tokens') := by
            simp only [after] at hafter
            split at hafter
            · exact (List.cons.inj hafter).2.symm
            · exact hafter.symm
          rw [ih h.tail h'.tail hrender]

end Lexicon

end Disp.Library.Tokens

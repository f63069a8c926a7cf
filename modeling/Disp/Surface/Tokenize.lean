import Disp.Surface.Locality

/-!
# The token stream

`tokenize` skips white space and comments, reads a token and starts over, until nothing is
left.
-/

namespace Disp.Surface

open Disp.Library.Text List

/-- The rest of a block comment of some depth; `none` if it does not end. -/
def skipBlock : Nat → List Char → Option (List Char)
  | 0, text => some text
  | _ + 1, [] => none
  | depth + 1, c :: rest =>
    if c = '/' ∧ rest.head? = some '*' then skipBlock (depth + 2) rest.tail
    else if c = '*' ∧ rest.head? = some '/' then skipBlock depth rest.tail
    else skipBlock (depth + 1) rest
termination_by _ text => text.length

theorem skipBlock_suffix {depth : Nat} {text after : List Char}
    (h : skipBlock depth text = some after) : after <:+ text := by
  fun_induction skipBlock depth text with
  | case1 text => exact Option.some.inj h ▸ suffix_rfl
  | case2 => cases h
  | case3 depth c rest hopen ih | case4 depth c rest hopen hclose ih =>
    exact (ih h).trans ((tail_suffix rest).trans (suffix_cons c rest))
  | case5 depth c rest hopen hclose ih => exact (ih h).trans (suffix_cons c rest)

/-- `skip_whitespace_and_comments`; the error is the text from the start of a block comment
that does not end. -/
def skipTrivia : List Char → Except (List Char) (List Char)
  | [] => .ok []
  | c :: rest =>
    if isWhitespace c then skipTrivia rest
    else if c = '/' ∧ rest.head? = some '/' then skipTrivia (rest.dropWhile (· ≠ '\n'))
    else if c = '/' ∧ rest.head? = some '*' then
      match _hblock : skipBlock 1 rest.tail with
      | none => .error (c :: rest)
      | some after => skipTrivia after
    else .ok (c :: rest)
termination_by text => text.length
decreasing_by
  · simp
  · have := (List.dropWhile_suffix (l := rest) (· ≠ '\n')).length_le
    simp only [List.length_cons]
    omega
  · have := (skipBlock_suffix _hblock).length_le
    simp only [List.length_tail, List.length_cons] at this ⊢
    omega

theorem skipTrivia_suffix {text rest : List Char} (h : skipTrivia text = .ok rest) :
    rest <:+ text := by
  fun_induction skipTrivia text with
  | case1 | case6 => exact Except.ok.inj h ▸ suffix_rfl
  | case2 c tail _ ih => exact (ih h).trans (suffix_cons c tail)
  | case3 c tail _ _ ih =>
    exact (ih h).trans ((dropWhile_suffix _).trans (suffix_cons c tail))
  | case4 => cases h
  | case5 c tail _ _ _ after hblock ih =>
    exact ((ih h).trans (skipBlock_suffix hblock)).trans
      ((tail_suffix tail).trans (suffix_cons c tail))

section Stream

variable {φ : Type} (lexicon : Lexicon φ)

theorem readToken_suffix {c : Char} {text rest : List Char} {kind : TokenKind φ}
    (h : readToken lexicon c text = .ok (kind, rest)) : rest <:+ text := by
  obtain ⟨token, htoken⟩ := local_readToken lexicon c text kind rest h
  exact ⟨token, htoken.text_eq.symm⟩

/-- What was taken off a text of which `rest` is left. -/
def consumed (text rest : List Char) : List Char := text.take (text.length - rest.length)

def Failure.diagnostic (failure : Failure) (start : Position) (text : List Char) : Diagnostic :=
  ⟨.lex, failure.message, ⟨start, start.over (consumed text failure.rest)⟩, failure.help⟩

def unterminatedComment (position : Position) (text comment : List Char) : Diagnostic :=
  ⟨.lex, "unterminated block comment",
    ⟨position.over (consumed text comment), position.over text⟩, none⟩

def tokenizeFrom (position : Position) (text : List Char) :
    Except Diagnostic (List (Token φ)) :=
  match _htrivia : skipTrivia text with
  | .error comment => .error (unterminatedComment position text comment)
  | .ok rest =>
    let start := position.over (consumed text rest)
    match rest with
    | [] => .ok [⟨.eof, ⟨start, start⟩⟩]
    | c :: tail =>
      match _htoken : readToken lexicon c tail with
      | .error failure => .error (failure.diagnostic start (c :: tail))
      | .ok (kind, after) => do
          let stop := start.over (consumed (c :: tail) after)
          let tokens ← tokenizeFrom stop after
          .ok (⟨kind, ⟨start, stop⟩⟩ :: tokens)
termination_by text.length
decreasing_by
  have htail := (readToken_suffix lexicon _htoken).length_le
  have htext := (skipTrivia_suffix _htrivia).length_le
  simp only [List.length_cons] at htext
  omega

/-- `Lexer::new(source).tokenize()`. -/
def tokenize (source : List Char) : Except Diagnostic (List (Token φ)) :=
  tokenizeFrom lexicon ⟨1, 1⟩ source

end Stream

end Disp.Surface

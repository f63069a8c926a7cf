import Disp.Patterns.Exhaustive
import Mathlib.Logic.Relation

/-!
# Rows and columns

`pattern_is_useful` calls itself with a row of patterns and the types of its columns.  The two
have the same length until a constructor pattern with arguments stands where the type is
open: its arguments join the row, and no types join theirs.
-/

namespace Disp.Patterns

open List

open Disp.Library.Codec (bind_eq_ok)
open Disp.Library.IndexedSearch (lookup_of_mem mem_of_lookup)
open Disp.Library.PatternMatrix
open Disp.TypeChecker
open Relation (ReflTransGen)

variable {α : Type} {entries before : List α} {f : α → Option Bool} {rest : List CoveragePattern}
  {entry : CoverageConstructor × List CoverageType} {pattern : CoveragePattern}
  {head : CoverageConstructor} {constructors : List (CoverageConstructor × List CoverageType)}
  {checked : Checked} {scrutinee : Ty} {arms : List Arm} {coverage : MatchCoverage} {all : List Arm}

/-! ## Calls -/

/-- The arguments of `pattern_is_useful`. -/
structure Query where
  steps : Nat
  matrix : List (List CoveragePattern)
  candidate : List CoveragePattern
  types : List CoverageType

namespace Query

def result (query : Query) : Option Bool :=
  patternIsUseful query.steps query.matrix query.candidate query.types

/-- The call for a constructor of the first column. -/
def specialized (steps : Nat) (matrix : List (List CoveragePattern))
    (constructor : CoverageConstructor) (arguments rest : List CoveragePattern)
    (fields types : List CoverageType) : Query :=
  { steps, matrix := specializeMatrix matrix constructor fields.length,
    candidate := arguments ++ rest, types := fields ++ types }

def branch (steps : Nat) (matrix : List (List CoveragePattern)) (rest : List CoveragePattern)
    (types : List CoverageType) (entry : CoverageConstructor × List CoverageType) : Query :=
  specialized steps matrix entry.1 (List.replicate entry.2.length .wildcard) rest entry.2 types

/-- A call makes another one.  For a wildcard the constructors are tried in order, until the
pattern is useful for one. -/
inductive Calls : Query → Query → Prop
  | constructor (steps : Nat) (matrix : List (List CoveragePattern))
      (head : CoverageConstructor) (arguments rest : List CoveragePattern) (ty : CoverageType)
      (types : List CoverageType) :
      Calls ⟨steps + 1, matrix, .constructor head arguments :: rest, ty :: types⟩
        (specialized steps matrix head arguments rest (fieldsOf head ty) types)
  | branch (steps : Nat) (matrix : List (List CoveragePattern)) (rest : List CoveragePattern)
      (types : List CoverageType) (before after : List (CoverageConstructor × List CoverageType))
      (entry : CoverageConstructor × List CoverageType) :
      (∀ earlier ∈ before, (branch steps matrix rest types earlier).result = some false) →
      Calls ⟨steps + 1, matrix, .wildcard :: rest, .finite (before ++ entry :: after) :: types⟩
        (branch steps matrix rest types entry)
  | default (steps : Nat) (matrix : List (List CoveragePattern)) (rest : List CoveragePattern)
      (types : List CoverageType) :
      Calls ⟨steps + 1, matrix, .wildcard :: rest, .opened :: types⟩
        ⟨steps, defaultMatrix matrix, rest, types⟩

/-- The row, and the rows of the matrix, are as long as the list of types. -/
structure Aligned (query : Query) : Prop where
  candidate : query.candidate.length = query.types.length
  rows : ∀ row ∈ query.matrix, row.length = query.types.length

end Query

/-! ## The walk over the columns -/

/-- How a walk over the columns ends: at a constructor pattern with arguments under an open
type, behind the last column, at the 128th step, or at a type without constructors. -/
inductive Outcome
  | cut
  | through
  | stopped
  | blocked
  deriving DecidableEq, Repr

/-- The outcome of the first branch that is not blocked. -/
def firstOpen {α : Type} (outcome : α → Outcome) : List α → Outcome
  | [] => .blocked
  | entry :: entries =>
    match outcome entry with
    | .blocked => firstOpen outcome entries
    | other => other

/-- The columns from the left; a wildcard is replaced by the first constructor of its type
that leads on. -/
def walk : (steps : Nat) → List CoveragePattern → List CoverageType → Outcome
  | 0, _, _ => .stopped
  | _ + 1, [], _ => .through
  | _ + 1, _ :: _, [] => .cut
  | steps + 1, .constructor _ arguments :: rest, .opened :: types =>
    if arguments.isEmpty then walk steps rest types else .cut
  | steps + 1, .constructor head arguments :: rest, .finite constructors :: types =>
    let fields := fieldsOf head (.finite constructors)
    walk steps (arguments ++ rest) (fields ++ types)
  | steps + 1, .wildcard :: rest, .opened :: types => walk steps rest types
  | steps + 1, .wildcard :: rest, .finite constructors :: types =>
    firstOpen (fun (_, fields) =>
      walk steps (List.replicate fields.length .wildcard ++ rest) (fields ++ types)) constructors

variable {outcome : α → Outcome}

theorem firstOpen_eq_blocked :
    firstOpen outcome entries = .blocked ↔ ∀ entry ∈ entries, outcome entry = .blocked := by
  induction entries with
  | nil => simp [firstOpen]
  | cons entry entries ih =>
    rw [firstOpen]
    split <;> simp_all

theorem firstOpen_taken {taken : Outcome} (h : firstOpen outcome entries = taken)
    (hne : taken ≠ .blocked) :
    ∃ before entry after, entries = before ++ entry :: after ∧
      (∀ earlier ∈ before, outcome earlier = .blocked) ∧ outcome entry = taken := by
  induction entries with
  | nil => exact absurd h.symm hne
  | cons entry entries ih =>
    rw [firstOpen] at h
    split at h
    · obtain ⟨before, found, after, rfl, hbefore, hfound⟩ := ih h
      exact ⟨entry :: before, found, after, rfl, by simp_all, hfound⟩
    · exact ⟨[], entry, entries, rfl, by simp, h⟩

theorem firstOpen_append (hbefore : ∀ earlier ∈ before, outcome earlier = .blocked)
    (entries : List α) : firstOpen outcome (before ++ entries) = firstOpen outcome entries := by
  induction before with
  | nil => rfl
  | cons entry before ih =>
    simp only [mem_cons, forall_eq_or_imp] at hbefore
    rw [cons_append, firstOpen, hbefore.1]
    exact ih hbefore.2

theorem firstOpen_cons {entry : α} (entries : List α) (h : outcome entry ≠ .blocked) :
    firstOpen outcome (entry :: entries) = outcome entry := by
  rw [firstOpen]
  split
  · exact absurd ‹_› h
  · rfl

theorem firstOpen_congr {f g : α → Outcome}
    (h : ∀ entry ∈ entries, f entry ≠ .stopped → g entry = f entry)
    (hne : firstOpen f entries ≠ .stopped) : firstOpen g entries = firstOpen f entries := by
  induction entries with
  | nil => rfl
  | cons entry entries ih =>
    simp only [mem_cons, forall_eq_or_imp] at h
    by_cases hblocked : f entry = .blocked
    · have hg := h.1 (by simp [hblocked])
      simp only [firstOpen, hg, hblocked] at hne ⊢
      exact ih h.2 hne
    · rw [firstOpen_cons _ hblocked] at hne ⊢
      rw [firstOpen_cons _ (h.1 hne ▸ hblocked), h.1 hne]

/-! ### More steps -/

variable {steps : Nat} {candidate : List CoveragePattern} {types : List CoverageType}

/-- A walk that is not stopped ends the same way with more steps. -/
theorem walk_succ (h : walk steps candidate types ≠ .stopped) :
    walk (steps + 1) candidate types = walk steps candidate types := by
  induction steps generalizing candidate types with
  | zero => exact absurd rfl h
  | succ steps ih =>
    match candidate, types with
    | [], _ => rfl
    | _ :: _, [] => rfl
    | .constructor head arguments :: rest, .opened :: types =>
      rw [walk] at h ⊢
      split_ifs at h with hargs
      · rw [walk, if_pos hargs, if_pos hargs]
        exact ih h
      · rw [walk, if_neg hargs, if_neg hargs]
    | .constructor head arguments :: rest, .finite constructors :: types =>
      exact ih h
    | .wildcard :: rest, .opened :: types => exact ih h
    | .wildcard :: rest, .finite constructors :: types =>
      exact firstOpen_congr (fun _ _ => ih) h

theorem walk_of_le {more : Nat} (hle : steps ≤ more) (h : walk steps candidate types ≠ .stopped) :
    walk more candidate types = walk steps candidate types := by
  induction more, hle using Nat.le_induction with
  | base => rfl
  | succ more _ ih => rw [walk_succ (ih ▸ h), ih]

theorem walk_unique {m n : Nat} (hm : walk m candidate types ≠ .stopped)
    (hn : walk n candidate types ≠ .stopped) : walk m candidate types = walk n candidate types := by
  rcases Nat.le_total m n with hle | hle
  · exact (walk_of_le hle hm).symm
  · exact walk_of_le hle hn

theorem walk_wildcards {fields : List CoverageType} {rest : List CoveragePattern}
    {outcome : Outcome}
    (h : walk steps (List.replicate fields.length .wildcard ++ rest) (fields ++ types) = outcome)
    (hstopped : outcome ≠ .stopped) (hblocked : outcome ≠ .blocked) :
    ∃ fewer, walk fewer rest types = outcome := by
  induction steps generalizing fields with
  | zero => exact absurd h.symm hstopped
  | succ steps ih =>
    match fields with
    | [] => exact ⟨steps + 1, h⟩
    | .opened :: fields => exact ih h
    | .finite constructors :: fields =>
      obtain ⟨before, entry, after, -, -, hentry⟩ := firstOpen_taken h hblocked
      refine @ih (entry.2 ++ fields) ?_
      rw [length_append, replicate_add, append_assoc, append_assoc]
      exact hentry

/-! ### Results -/

theorem anyM_append_false (hbefore : ∀ item ∈ before, f item = some false) (items : List α) :
    (before ++ items).anyM f = items.anyM f := by
  induction before with
  | nil => rfl
  | cons item before ih =>
    simp only [mem_cons, forall_eq_or_imp] at hbefore
    rw [cons_append, anyM_cons, hbefore.1]
    exact ih hbefore.2

theorem anyM_eq_none {items : List α} (h : items.anyM f = none) :
    ∃ before item after, items = before ++ item :: after ∧
      (∀ earlier ∈ before, f earlier = some false) ∧ f item = none := by
  induction items with
  | nil => cases h
  | cons item items ih =>
    rw [anyM_cons] at h
    cases huseful : f item with
    | none => exact ⟨[], item, items, rfl, by simp, huseful⟩
    | some useful =>
      rw [huseful] at h
      cases useful with
      | true => cases h
      | false =>
        obtain ⟨before, found, after, rfl, hbefore, hfound⟩ := ih h
        exact ⟨item :: before, found, after, rfl, by simp_all, hfound⟩

/-- Where the walk is blocked the pattern is not useful, and where it is stopped it counts as
useful. -/
theorem result_of_walk {useful : Bool}
    (h : walk steps candidate types = bif useful then .stopped else .blocked)
    (matrix : List (List CoveragePattern)) :
    patternIsUseful steps matrix candidate types = some useful := by
  induction steps generalizing candidate types matrix useful with
  | zero =>
    cases useful with
    | true => rfl
    | false => cases h
  | succ steps ih =>
    match candidate, types with
    | [], _ | _ :: _, [] => cases useful <;> cases h
    | .constructor head arguments :: rest, .opened :: types =>
      rw [walk] at h
      split_ifs at h with hargs
      · obtain rfl := List.isEmpty_iff.mp hargs
        exact ih h _
      · cases useful <;> cases h
    | .constructor head arguments :: rest, .finite constructors :: types
    | .wildcard :: rest, .opened :: types => exact ih h _
    | .wildcard :: rest, .finite constructors :: types =>
      cases useful with
      | false =>
        have hall := firstOpen_eq_blocked.mp h
        have := anyM_append_false (fun entry hentry => ih (hall entry hentry)
          (specializeMatrix matrix entry.1 entry.2.length)) []
        rwa [append_nil] at this
      | true =>
        obtain ⟨before, entry, after, rfl, hbefore, hentry⟩ := firstOpen_taken h (by decide)
        have hfalse := anyM_append_false (fun earlier hearlier => ih (hbefore earlier hearlier)
          (specializeMatrix matrix earlier.1 earlier.2.length)) (entry :: after)
        refine hfalse.trans ?_
        rw [anyM_cons]
        simp only [ih (show _ = bif true then _ else _ from hentry)]
        rfl

/-! ## Alignment is kept -/

/-- The walk of a branch that is reached does not end at a cut either. -/
theorem walk_branch {matrix : List (List CoveragePattern)}
    {before after : List (CoverageConstructor × List CoverageType)}
    (h : walk (steps + 1) (.wildcard :: rest) (.finite (before ++ entry :: after) :: types) ≠ .cut)
    (hbefore : ∀ earlier ∈ before,
      (Query.branch steps matrix rest types earlier).result = some false) :
    walk steps (List.replicate entry.2.length .wildcard ++ rest) (entry.2 ++ types) ≠ .cut := by
  intro hcut
  set outcome := fun entry : CoverageConstructor × List CoverageType =>
    walk steps (List.replicate entry.2.length .wildcard ++ rest) (entry.2 ++ types) with houtcome
  change firstOpen outcome (before ++ entry :: after) ≠ .cut at h
  by_cases hblocked : ∀ earlier ∈ before, outcome earlier = .blocked
  · rw [firstOpen_append hblocked, firstOpen_cons _ (by rw [houtcome]; simp [hcut])] at h
    exact h hcut
  · obtain ⟨first, x, after', rfl, hfirst, hx⟩ :=
      firstOpen_taken rfl (mt firstOpen_eq_blocked.mp hblocked)
    have hopen : outcome x ≠ .blocked := by
      rw [hx]
      exact mt firstOpen_eq_blocked.mp hblocked
    rw [append_assoc, cons_append, firstOpen_append hfirst, firstOpen_cons _ hopen] at h
    have hres := hbefore x (by simp)
    have hstopped : outcome x ≠ .stopped := by
      intro hstopped
      have := result_of_walk (show _ = bif true then _ else _ from hstopped)
        (specializeMatrix matrix x.1 x.2.length)
      rw [Query.result, Query.branch, Query.specialized] at hres
      rw [hres] at this
      cases this
    -- Both branches end in the columns behind the wildcard's.
    obtain ⟨m, hm⟩ := @walk_wildcards _ types _ rest _ rfl hstopped hopen
    obtain ⟨n, hn⟩ := walk_wildcards hcut (by decide) (by decide)
    have := walk_unique (hm ▸ hstopped) (by rw [hn]; decide) |>.symm.trans hm
    exact h (this.symm.trans hn)

/-- Rows that respect the types and agree with the row that is asked for, which meets no
cut. -/
structure Good (query : Query) : Prop where
  candidate : RespectsAll query.candidate query.types
  rows : ∀ row ∈ query.matrix, RespectsAll row query.types
  agree : ∀ row ∈ query.matrix, AgreeAll query.candidate row
  uncut : walk query.steps query.candidate query.types ≠ .cut

theorem Good.aligned {query : Query} (h : Good query) : query.Aligned :=
  ⟨h.candidate.length_eq, fun row hrow => (h.rows row hrow).length_eq⟩

theorem agree_default {matrix : List (List CoveragePattern)}
    (h : ∀ row ∈ matrix, AgreeAll (pattern :: rest) row) :
    ∀ row ∈ defaultMatrix matrix, AgreeAll rest row := by
  intro row hmem
  obtain ⟨source, hsrc, hrow⟩ := mem_filterMap.mp hmem
  split at hrow
  · cases hrow
    exact (agreeAll_cons.mp (h _ hsrc)).2
  · cases hrow

theorem agree_specialize {matrix : List (List CoveragePattern)} {arguments : List CoveragePattern}
    {arity : Nat} (h : ∀ row ∈ matrix, AgreeAll (pattern :: rest) row)
    (harity : arguments.length = arity)
    (hargs : ∀ other more, .constructor head other :: more ∈ matrix → AgreeAll arguments other) :
    ∀ row ∈ specializeMatrix matrix head arity, AgreeAll (arguments ++ rest) row := by
  intro row hmem
  obtain ⟨source, hsrc, hrow⟩ := mem_filterMap.mp hmem
  cases source with
  | nil => cases hrow
  | cons first more =>
    obtain ⟨-, hrest⟩ := agreeAll_cons.mp (h _ hsrc)
    cases first with
    | wildcard =>
      cases hrow
      exact (agreeAll_wildcards harity).append hrest
    | constructor candidate other =>
      simp only at hrow
      split_ifs at hrow with heq
      cases hrow
      subst heq
      exact (hargs other more hsrc).append hrest

theorem fieldsOf_mem (h : ∃ shapes, (head, shapes) ∈ constructors) :
    (head, fieldsOf head (.finite constructors)) ∈ constructors := by
  obtain ⟨shapes, hshapes⟩ := h
  cases hlook : constructors.lookup head with
  | none => simpa using lookup_eq_none_iff.mp hlook _ hshapes
  | some found =>
    rw [fieldsOf, hlook]
    exact mem_of_lookup hlook

/-- Every call keeps what a good query has. -/
theorem Good.calls {query next : Query} (h : Good query) (hcall : Query.Calls query next) :
    Good next := by
  obtain ⟨hcand, hrows, hagree, huncut⟩ := h
  cases hcall with
  | constructor steps matrix head arguments rest ty types =>
    obtain ⟨hfirst, hrest⟩ := respectsAll_cons.mp hcand
    cases ty with
    | opened =>
      rw [walk] at huncut
      split_ifs at huncut with hargs
      · obtain rfl := List.isEmpty_iff.mp hargs
        have hnone (other more) (hmem : .constructor head other :: more ∈ matrix) :
            other = [] := (agreeAll_cons.mp (hagree _ hmem)).1 rfl
        refine ⟨hrest, ?_, ?_, huncut⟩
        · refine respects_specialize hrows fun other more hmem => ?_
          rw [hnone other more hmem]
          rfl
        · exact agree_specialize hagree rfl fun other more hmem => hnone other more hmem
      · exact absurd rfl huncut
    | finite constructors =>
      have hhead := fieldsOf_mem hfirst.1
      have hrespects := hfirst.2 _ hhead
      refine ⟨hrespects.append hrest, ?_, ?_, huncut⟩
      · exact respects_specialize hrows (respects_arguments hrows hhead)
      · exact agree_specialize hagree hrespects.length_eq
          fun other more hmem => (agreeAll_cons.mp (hagree _ hmem)).1 rfl
  | branch steps matrix rest types before after entry hbefore =>
    have hentry : entry ∈ before ++ entry :: after := by simp
    refine ⟨?_, ?_, ?_, walk_branch huncut hbefore⟩
    · exact (respectsAll_wildcards entry.2).append (respectsAll_cons.mp hcand).2
    · exact respects_specialize hrows (respects_arguments hrows hentry)
    · exact agree_specialize hagree (by simp) fun other more hmem =>
        wildcards_agreeAll (respects_arguments hrows hentry other more hmem).length_eq
  | default steps matrix rest types =>
    exact ⟨(respectsAll_cons.mp hcand).2, respects_default hrows, agree_default hagree, huncut⟩

theorem Good.reaches {query call : Query} (h : Good query)
    (hcalls : ReflTransGen Query.Calls query call) : Good call := by
  induction hcalls with
  | refl => exact h
  | tail _ hcall ih => exact ih.calls hcall

theorem Good.result_ne_none {query : Query} (h : Good query) : query.result ≠ none := by
  obtain ⟨steps, matrix, candidate, types⟩ := query
  induction steps generalizing matrix candidate types with
  | zero => simp [Query.result, patternIsUseful]
  | succ steps ih =>
    match candidate, types with
    | [], _ => simp [Query.result, patternIsUseful]
    | _ :: _, [] => exact absurd h.candidate.length_eq (by simp)
    | .constructor head arguments :: rest, ty :: types =>
      exact ih _ _ _ (h.calls (.constructor ..))
    | .wildcard :: rest, .opened :: types => exact ih _ _ _ (h.calls (.default ..))
    | .wildcard :: rest, .finite constructors :: types =>
      intro hnone
      obtain ⟨before, entry, after, rfl, hbefore, hentry⟩ := anyM_eq_none hnone
      exact ih _ _ _ (h.calls (.branch _ _ _ _ _ _ entry hbefore)) hentry

/-! ## A cut misaligns -/

def Query.Misaligns (query : Query) : Prop :=
  ∃ call, ReflTransGen Query.Calls query call ∧ ¬ call.Aligned

theorem Query.Misaligns.calls {query next : Query} (h : next.Misaligns)
    (hcall : Query.Calls query next) : query.Misaligns := by
  obtain ⟨call, hcalls, hmisaligned⟩ := h
  exact ⟨call, .head hcall hcalls, hmisaligned⟩

/-- Whatever the matrix, a walk that ends at a cut makes a call whose row is longer than its list
of types. -/
theorem misaligns_of_cut (hrespects : RespectsAll candidate types)
    (h : walk steps candidate types = .cut) (matrix : List (List CoveragePattern)) :
    Query.Misaligns ⟨steps, matrix, candidate, types⟩ := by
  induction steps generalizing candidate types matrix with
  | zero => cases h
  | succ steps ih =>
    match candidate, types with
    | [], _ => cases h
    | _ :: _, [] => exact absurd hrespects.length_eq (by simp)
    | .constructor head arguments :: rest, .opened :: types =>
      obtain ⟨-, hrest⟩ := respectsAll_cons.mp hrespects
      rw [walk] at h
      split_ifs at h with hargs
      · obtain rfl := List.isEmpty_iff.mp hargs
        exact (ih hrest h _).calls (.constructor _ _ head [] rest .opened types)
      · refine ⟨_, .single (.constructor _ _ head arguments rest .opened types), fun haligned => ?_⟩
        have hlen : arguments.length + rest.length = types.length := by
          simpa [Query.specialized, fieldsOf] using haligned.candidate
        have hnone : arguments.length = 0 := by have := hrest.length_eq; omega
        exact hargs (List.isEmpty_iff.mpr (length_eq_zero_iff.mp hnone))
    | .constructor head arguments :: rest, .finite constructors :: types =>
      obtain ⟨hfirst, hrest⟩ := respectsAll_cons.mp hrespects
      exact (ih ((hfirst.2 _ (fieldsOf_mem hfirst.1)).append hrest) h _).calls
        (.constructor _ _ head arguments rest (.finite constructors) types)
    | .wildcard :: rest, .opened :: types =>
      exact (ih (respectsAll_cons.mp hrespects).2 h _).calls (.default _ _ rest types)
    | .wildcard :: rest, .finite constructors :: types =>
      obtain ⟨before, entry, after, rfl, hbefore, hentry⟩ := firstOpen_taken h (by decide)
      have hmisaligns := ih
        ((respectsAll_wildcards entry.2).append (respectsAll_cons.mp hrespects).2) hentry
        (specializeMatrix matrix entry.1 entry.2.length)
      refine hmisaligns.calls (.branch _ _ rest types before after entry ?_)
      exact fun earlier hearlier => result_of_walk (hbefore earlier hearlier) _

/-! ## Patterns of one type agree -/

variable {registry : Registry}

def isValue : CoverageConstructor → Bool
  | .variant _ | .struct _ => false
  | _ => true

theorem checkPattern_shape {pattern : Pattern} {ty : Ty}
    (h : checkPattern registry pattern ty = .ok checked) :
    checked.1 = .wildcard ∨ (∃ head, isValue head = true ∧ checked.1 = .constructor head []) ∨
      (∃ typeName fields rest, pattern = .struct typeName fields rest) ∨
      ∃ typeName variant arguments, pattern = .variant typeName variant arguments := by
  cases pattern with
  | wildcard | binding =>
    cases h
    exact .inl rfl
  | or => cases h
  | integer | string | character | bool =>
    obtain ⟨-, -, h⟩ := bind_eq_ok h
    cases h
    exact .inr (.inl ⟨_, rfl, rfl⟩)
  | negativeInteger =>
    rw [checkPattern] at h
    split_ifs at h
    obtain ⟨-, -, h⟩ := bind_eq_ok h
    cases h
    exact .inr (.inl ⟨_, rfl, rfl⟩)
  | struct typeName fields rest => exact .inr (.inr (.inl ⟨_, _, _, rfl⟩))
  | variant typeName variant arguments => exact .inr (.inr (.inr ⟨_, _, _, rfl⟩))

theorem variantPayload_unique {ty : Ty} {typeName typeName' : Option String} {variant : String}
    {tys tys' : List Ty} (h : variantPayload registry typeName variant ty = .ok tys)
    (h' : variantPayload registry typeName' variant ty = .ok tys') : tys = tys' := by
  unfold variantPayload at h h'
  split at h
  · exact Option.some.inj ((ownedPayload_inv h).2.symm.trans (ownedPayload_inv h').2)
  · exact Option.some.inj ((ownedPayload_inv h).2.symm.trans (ownedPayload_inv h').2)
  · rename_i id arguments
    cases hinfo : registry.enums.lookup id with
    | none => simp [hinfo] at h
    | some info =>
      simp only [hinfo] at h h'
      exact Option.some.inj ((ownedPayload_inv h).2.symm.trans (ownedPayload_inv h').2)
  · cases h

/-- The fields of two struct patterns agree if their checks do. -/
theorem agree_checkNamed {checks checks' : List (String × (Ty → Except PatternError Checked))}
    {substitutions : Substitutions} {declared : List (String × Ty)}
    {named named' : List CoveragePattern × List (String × Ty)}
    (hchecks : ∀ entry ∈ checks, ∀ entry' ∈ checks', ∀ ty checked checked',
      entry.2 ty = .ok checked → entry'.2 ty = .ok checked' → Agree checked.1 checked'.1)
    (h : checkNamed checks substitutions declared = .ok named)
    (h' : checkNamed checks' substitutions declared = .ok named') : AgreeAll named.1 named'.1 := by
  induction declared generalizing named named' with
  | nil =>
    cases h
    cases h'
    rfl
  | cons field declared ih =>
    obtain ⟨first, hfirst, h⟩ := bind_eq_ok h
    obtain ⟨rest, hrest, h⟩ := bind_eq_ok h
    obtain ⟨first', hfirst', h'⟩ := bind_eq_ok h'
    obtain ⟨rest', hrest', h'⟩ := bind_eq_ok h'
    cases h
    cases h'
    refine agreeAll_cons.mpr ⟨?_, ih hrest hrest'⟩
    rw [checkField] at hfirst hfirst'
    split at hfirst
    · split at hfirst'
      · exact hchecks _ (mem_of_lookup ‹_›) _ (mem_of_lookup ‹_›) _ _ _ hfirst hfirst'
      · cases hfirst'
        exact agree_wildcard _
    · cases hfirst
      simp [Agree]

/-- A wildcard or a literal agrees with every pattern of its type. -/
theorem agree_of_value {pattern other : Pattern} {ty : Ty} {checked' : Checked}
    (hstruct : ∀ typeName fields rest, pattern ≠ .struct typeName fields rest)
    (hvariant : ∀ typeName variant arguments, pattern ≠ .variant typeName variant arguments)
    (h : checkPattern registry pattern ty = .ok checked)
    (h' : checkPattern registry other ty = .ok checked') : Agree checked.1 checked'.1 := by
  rcases checkPattern_shape h with hfirst | ⟨head, hval, hfirst⟩ | ⟨_, _, _, rfl⟩ | ⟨_, _, _, rfl⟩
  · rw [hfirst]
    simp [Agree]
  · rw [hfirst]
    rcases checkPattern_shape h' with hother | ⟨head', -, hother⟩ | ⟨_, _, _, rfl⟩ | ⟨_, _, _, rfl⟩
    · rw [hother]
      exact agree_wildcard _
    · rw [hother]
      exact fun _ => rfl
    · obtain ⟨_, _, _, _, -, -, -, -, -, rfl⟩ := checkStruct_inv h'
      rintro rfl
      cases hval
    · obtain ⟨_, _, -, -, -, rfl⟩ := checkVariant_inv h'
      rintro rfl
      cases hval
  · exact absurd rfl (hstruct _ _ _)
  · exact absurd rfl (hvariant _ _ _)

mutual

/-- Two patterns that are checked against one type agree. -/
theorem agree_checkPattern (pattern : Pattern) {other : Pattern} {ty : Ty}
    {checked checked' : Checked} (h : checkPattern registry pattern ty = .ok checked)
    (h' : checkPattern registry other ty = .ok checked') : Agree checked.1 checked'.1 := by
  match pattern with
  | .struct typeName fields rest =>
    obtain ⟨id, arguments, info, named, rfl, hinfo, rfl, -, hnamed, rfl⟩ := checkStruct_inv h
    rcases checkPattern_shape h' with hother | ⟨head, hval, hother⟩ |
      ⟨typeName', fields', rest', rfl⟩ | ⟨typeName', variant', arguments', rfl⟩
    · rw [hother]
      exact agree_wildcard _
    · rw [hother]
      rintro rfl
      cases hval
    · obtain ⟨_, _, info', named', hty, hinfo', rfl, -, hnamed', rfl⟩ := checkStruct_inv h'
      cases hty
      obtain rfl : info = info' := Option.some.inj (hinfo.symm.trans hinfo')
      refine fun _ => agree_checkNamed (fun entry hentry entry' hentry' ty => ?_) hnamed hnamed'
      rw [checkFields_eq_map, mem_map] at hentry'
      obtain ⟨field', -, rfl⟩ := hentry'
      exact fun checked checked' =>
        agree_checkFields fields entry hentry field'.2 ty checked checked'
    · obtain ⟨_, _, hpay, -⟩ := checkVariant_inv h'
      cases hpay
  | .variant typeName variant arguments =>
    obtain ⟨tys, inner, hpay, hcount, hinner, rfl⟩ := checkVariant_inv h
    rcases checkPattern_shape h' with hother | ⟨head, hval, hother⟩ |
      ⟨typeName', fields', rest', rfl⟩ | ⟨typeName', variant', arguments', rfl⟩
    · rw [hother]
      exact agree_wildcard _
    · rw [hother]
      rintro rfl
      cases hval
    · obtain ⟨_, _, _, _, rfl, -⟩ := checkStruct_inv h'
      cases hpay
    · obtain ⟨tys', inner', hpay', hcount', hinner', rfl⟩ := checkVariant_inv h'
      intro heq
      cases heq
      obtain rfl := variantPayload_unique hpay hpay'
      exact agree_checkArguments arguments hinner hinner' hcount hcount'
  | .wildcard | .binding _ | .or _ | .integer _ | .negativeInteger _ | .string _
  | .character _ | .bool _ => exact agree_of_value (by simp) (by simp) h h'

theorem agree_checkFields (fields : List (String × Pattern)) :
    ∀ entry ∈ checkFields registry fields,
      ∀ (other : Pattern) (ty : Ty) (checked checked' : Checked),
      entry.2 ty = .ok checked → checkPattern registry other ty = .ok checked' →
      Agree checked.1 checked'.1 := by
  match fields with
  | [] => simp [checkFields]
  | (name, pattern) :: fields =>
    intro entry hentry other ty checked checked' h h'
    rcases mem_cons.mp hentry with rfl | hentry
    · exact agree_checkPattern pattern h h'
    · exact agree_checkFields fields entry hentry other ty checked checked' h h'

theorem agree_checkArguments (arguments : List Pattern) {others : List Pattern} {tys : List Ty}
    {inner inner' : List CoveragePattern × List (String × Ty)}
    (h : checkArguments registry arguments tys = .ok inner)
    (h' : checkArguments registry others tys = .ok inner')
    (hcount : tys.length = arguments.length) (hcount' : tys.length = others.length) :
    AgreeAll inner.1 inner'.1 := by
  match arguments, others, tys with
  | [], [], [] =>
    cases h
    cases h'
    rfl
  | [], _ :: _, _ | _ :: _, [], _ => exact absurd (hcount.symm.trans hcount') (by simp)
  | pattern :: arguments, other :: others, ty :: tys =>
    obtain ⟨first, hfirst, h⟩ := bind_eq_ok h
    obtain ⟨rest, hrest, h⟩ := bind_eq_ok h
    obtain ⟨first', hfirst', h'⟩ := bind_eq_ok h'
    obtain ⟨rest', hrest', h'⟩ := bind_eq_ok h'
    cases h
    cases h'
    exact agreeAll_cons.mpr ⟨agree_checkPattern pattern hfirst hfirst',
      agree_checkArguments arguments hrest hrest' (Nat.succ.inj hcount) (Nat.succ.inj hcount')⟩

end

/-! ## The queries of a match -/

namespace MatchCoverage

def query (coverage : MatchCoverage) (pattern : CoveragePattern) : Query :=
  { steps := 128, matrix := coverage.rows, candidate := [pattern], types := [coverage.ty] }

/-- The queries that `finish` starts; those for its message only if the match is not
exhaustive. -/
def finishQueries (coverage : MatchCoverage) : List Query :=
  coverage.query .wildcard ::
    match (coverage.query .wildcard).result, coverage.ty with
    | some true, .finite constructors =>
      constructors.map fun entry => coverage.query (anyOf entry.1 entry.2)
    | _, _ => []

end MatchCoverage

/-- The queries that the check of a match starts, up to its first error. -/
def startedFrom (registry : Registry) (scrutinee : Ty) : MatchCoverage → List Arm → List Query
  | coverage, [] => coverage.finishQueries
  | coverage, arm :: arms =>
    match checkPattern registry arm.pattern scrutinee with
    | .error _ => []
    | .ok (pattern, _) =>
      coverage.query pattern ::
        match coverage.add pattern (!arm.guarded) with
        | .error _ => []
        | .ok coverage => startedFrom registry scrutinee coverage arms

/-- An accepted match has an arm for every value, and no call of its check has a row of
another length than its list of types, or an index out of range. -/
structure MatchSound (registry : Registry) (scrutinee : Ty) (arms : List Arm) : Prop where
  exhaustive : checkMatch registry scrutinee arms = .ok () → ∀ value,
    HasType registry value scrutinee → ∃ arm ∈ arms, arm.guarded = false ∧
      Matches arm.pattern value
  aligned : ∀ query ∈ startedFrom registry scrutinee (.new registry scrutinee) arms, ∀ call,
    ReflTransGen Query.Calls query call → call.Aligned
  inRange : checkMatch registry scrutinee arms ≠ .error .indexOutOfRange

/-- The walk over a pattern of the scrutinee ends at a constructor pattern with arguments
under an open type. -/
def MeetsCut (registry : Registry) (scrutinee : Ty) (pattern : CoveragePattern) : Prop :=
  walk 128 [pattern] [coverageType registry 64 [] scrutinee] = .cut

theorem wildcards_uncut (steps : Nat) (types : List CoverageType) :
    walk steps (List.replicate types.length .wildcard) types ≠ .cut := by
  intro hcut
  have hcut' : walk steps (List.replicate types.length .wildcard ++ []) (types ++ []) = .cut := by
    simpa using hcut
  obtain ⟨fewer, hfewer⟩ := walk_wildcards hcut' (by decide) (by decide)
  cases fewer <;> cases hfewer

/-- A coverage type has every constructor once. -/
theorem constructors_nodup {levels : Nat} {visiting : List Ty} {ty : Ty}
    (h : coverageType registry levels visiting ty = .finite constructors) :
    (constructors.map Prod.fst).Nodup := by
  cases levels with
  | zero => cases h
  | succ levels =>
    unfold coverageType at h
    split at h
    · cases h
      decide
    · cases h
      simp
    · cases h
      simp
    · split_ifs at h
      split at h <;> cases h
      simp
    · split_ifs at h
      split at h <;> cases h
      rename_i info hinfo
      have hsorted : ((sortByName info.variants).map Prod.fst).Nodup :=
        ((mergeSort_perm _ _).map _).nodup_iff.mpr (registry.variantsOnce _ (mem_of_lookup hinfo))
      have hinjective : Function.Injective CoverageConstructor.variant :=
        fun _ _ h => CoverageConstructor.variant.inj h
      simpa [Function.comp_def] using hsorted.map hinjective
    · cases h

theorem Tracks.good {scrutinee : Ty} {arms : List Arm} {coverage : MatchCoverage}
    (h : Tracks registry scrutinee arms coverage) {pattern : Pattern} {checked : Checked}
    (hcheck : checkPattern registry pattern scrutinee = .ok checked)
    (huncut : ¬ MeetsCut registry scrutinee checked.1) : Good (coverage.query checked.1) := by
  refine ⟨?_, ?_, ?_, ?_⟩
  · rw [MatchCoverage.query, h.ty]
    exact ⟨_, [], rfl, respects_checkPattern pattern hcheck 64 [], rfl⟩
  · rw [MatchCoverage.query, h.ty]
    exact h.rows.respects 64 []
  · intro row hrow
    obtain ⟨arm, -, -, other, hother, rfl⟩ := h.rows row hrow
    exact ⟨_, [], rfl, agree_checkPattern pattern hcheck hother, rfl⟩
  · rw [MatchCoverage.query, h.ty]
    exact huncut

theorem Tracks.good_wildcard (h : Tracks registry scrutinee arms coverage) :
    Good (coverage.query .wildcard) :=
  @Tracks.good _ _ _ _ h .wildcard (.wildcard, []) rfl
    (wildcards_uncut 128 [coverageType registry 64 [] scrutinee])

theorem Tracks.good_anyOf (h : Tracks registry scrutinee arms coverage)
    (hty : coverage.ty = .finite constructors) (hentry : entry ∈ constructors) :
    Good (coverage.query (MatchCoverage.anyOf entry.1 entry.2)) := by
  have hnodup := constructors_nodup (h.ty.symm.trans hty)
  have hfields : fieldsOf entry.1 (.finite constructors) = entry.2 := by
    rw [fieldsOf, lookup_of_mem hnodup hentry, Option.getD_some]
  have hrows := h.rows.respects 64 []
  rw [← h.ty, hty] at hrows
  refine ⟨?_, ?_, ?_, ?_⟩
  · rw [MatchCoverage.query, hty]
    refine ⟨_, [], rfl, ⟨⟨_, hentry⟩, fun shapes hshapes => ?_⟩, rfl⟩
    have := lookup_of_mem hnodup hshapes
    rw [lookup_of_mem hnodup hentry] at this
    cases this
    exact respectsAll_wildcards _
  · rw [MatchCoverage.query, hty]
    exact hrows
  · intro row hrow
    obtain ⟨arm, -, -, other, -, rfl⟩ := h.rows row hrow
    refine ⟨_, [], rfl, ?_, rfl⟩
    cases hother : other.1 with
    | wildcard => exact agree_wildcard _
    | constructor head arguments =>
      rintro rfl
      rw [hother] at hrow
      exact wildcards_agreeAll (respects_arguments hrows hentry arguments [] hrow).length_eq
  · rw [MatchCoverage.query, hty]
    simp only [walk, MatchCoverage.anyOf, hfields, append_nil]
    exact wildcards_uncut 127 entry.2

theorem Tracks.good_finish (h : Tracks registry scrutinee arms coverage) :
    ∀ query ∈ coverage.finishQueries, Good query := by
  intro query hquery
  rcases mem_cons.mp hquery with rfl | hquery
  · exact h.good_wildcard
  · split at hquery
    · obtain ⟨entry, hentry, rfl⟩ := mem_map.mp hquery
      exact h.good_anyOf ‹_› hentry
    · cases hquery

/-- No arm that the check reaches has a pattern that meets a cut: the arms before it pass the
check, and its own pattern passes `check_pattern`. -/
def Uncut (registry : Registry) (scrutinee : Ty) (coverage : MatchCoverage) (arms : List Arm) :
    Prop :=
  ∀ before arm after reached checked, arms = before ++ arm :: after →
    checkArms registry scrutinee coverage before = .ok reached →
    checkPattern registry arm.pattern scrutinee = .ok checked →
    ¬ MeetsCut registry scrutinee checked.1

theorem checkArms_cons {after : MatchCoverage} {arm : Arm}
    (hcheck : checkPattern registry arm.pattern scrutinee = .ok checked)
    (hadd : coverage.add checked.1 (!arm.guarded) = .ok after) (arms : List Arm) :
    checkArms registry scrutinee coverage (arm :: arms) =
      checkArms registry scrutinee after arms := by
  simp only [checkArms, hcheck, hadd]

theorem Uncut.tail {after : MatchCoverage} {arm : Arm}
    (h : Uncut registry scrutinee coverage (arm :: arms))
    (hcheck : checkPattern registry arm.pattern scrutinee = .ok checked)
    (hadd : coverage.add checked.1 (!arm.guarded) = .ok after) :
    Uncut registry scrutinee after arms := by
  rintro before other rest reached found rfl hreached hfound
  refine h (arm :: before) other rest reached found rfl ?_ hfound
  rw [checkArms_cons hcheck hadd, hreached]

/-- Without a cut every query that the check of a match starts is good. -/
theorem Tracks.good_started (hsub : arms ⊆ all) (huncut : Uncut registry scrutinee coverage arms)
    (h : Tracks registry scrutinee all coverage) :
    ∀ query ∈ startedFrom registry scrutinee coverage arms, Good query := by
  induction arms generalizing coverage with
  | nil => exact h.good_finish
  | cons arm arms ih =>
    obtain ⟨harm, hsub⟩ := cons_subset.mp hsub
    rw [startedFrom]
    split
    · simp
    · rename_i pattern bindings hcheck
      intro query hquery
      rcases mem_cons.mp hquery with rfl | hquery
      · exact h.good hcheck (huncut [] arm arms coverage _ rfl rfl hcheck)
      · split at hquery
        · cases hquery
        · exact ih hsub (huncut.tail hcheck ‹_›) (h.add harm hcheck ‹_›) query hquery

/-- The check asks whether the pattern of an arm that it reaches is useful. -/
theorem mem_startedFrom {before after : List Arm} {arm : Arm} {reached : MatchCoverage}
    (hreached : checkArms registry scrutinee coverage before = .ok reached)
    (hcheck : checkPattern registry arm.pattern scrutinee = .ok checked) :
    reached.query checked.1 ∈ startedFrom registry scrutinee coverage (before ++ arm :: after) := by
  induction before generalizing coverage with
  | nil =>
    cases hreached
    rw [nil_append, startedFrom]
    simp only [hcheck]
    exact mem_cons_self
  | cons first before ih =>
    rw [checkArms] at hreached
    rw [cons_append, startedFrom]
    cases hfirst : checkPattern registry first.pattern scrutinee with
    | error error => simp [hfirst] at hreached
    | ok found =>
      simp only [hfirst] at hreached ⊢
      cases hadd : coverage.add found.1 (!first.guarded) with
      | error error => simp [hadd] at hreached
      | ok after =>
        simp only [hadd] at hreached ⊢
        exact mem_cons_of_mem _ (ih hreached)

theorem Tracks.missing_ne_none (h : Tracks registry scrutinee arms coverage)
    {all : List (CoverageConstructor × List CoverageType)} (hty : coverage.ty = .finite all)
    (hsub : constructors ⊆ all) : coverage.missing constructors ≠ none := by
  induction constructors with
  | nil => simp [MatchCoverage.missing]
  | cons entry constructors ih =>
    obtain ⟨hentry, hsub⟩ := cons_subset.mp hsub
    obtain ⟨useful, huseful⟩ := Option.ne_none_iff_exists'.mp
      (h.good_anyOf hty hentry).result_ne_none
    obtain ⟨names, hnames⟩ := Option.ne_none_iff_exists'.mp (ih hsub)
    simp only [Query.result, MatchCoverage.query] at huseful
    simp [MatchCoverage.missing, huseful, hnames]

theorem Tracks.finish_inRange (h : Tracks registry scrutinee arms coverage) :
    coverage.finish ≠ .error .indexOutOfRange := by
  have hres := h.good_wildcard.result_ne_none
  unfold MatchCoverage.finish
  split
  · exact absurd ‹_› hres
  · simp
  · split
    · split
      · exact absurd ‹_› (h.missing_ne_none ‹_› (List.Subset.refl _))
      · simp
    · simp

theorem Tracks.arms_inRange (hsub : arms ⊆ all) (huncut : Uncut registry scrutinee coverage arms)
    (h : Tracks registry scrutinee all coverage) :
    Patterns.checkArms registry scrutinee coverage arms ≠ .error .indexOutOfRange := by
  induction arms generalizing coverage with
  | nil => simp [Patterns.checkArms]
  | cons arm arms ih =>
    obtain ⟨harm, hsub⟩ := cons_subset.mp hsub
    rw [Patterns.checkArms]
    split
    · simp
    · rename_i pattern bindings hcheck
      have hres := (h.good hcheck (huncut [] arm arms coverage _ rfl rfl hcheck)).result_ne_none
      split
      · rename_i error hadd
        rintro ⟨⟩
        unfold MatchCoverage.add at hadd
        split at hadd
        · exact hres ‹_›
        · cases hadd
        · split_ifs at hadd
      · exact ih hsub (huncut.tail hcheck ‹_›) (h.add harm hcheck ‹_›)

/-- The check of a match is sound exactly if no arm that it reaches meets a cut. -/
theorem match_sound_iff (registry : Registry) (scrutinee : Ty) (arms : List Arm) :
    MatchSound registry scrutinee arms ↔
      Uncut registry scrutinee (.new registry scrutinee) arms := by
  have htracks := Tracks.new registry scrutinee arms
  constructor
  · rintro h before arm after reached checked rfl hreached hcheck hcut
    have hty := (htracks.checkArms (subset_append_left before _) hreached).ty
    have hrespects : RespectsAll [checked.1] [coverageType registry 64 [] scrutinee] :=
      ⟨_, [], rfl, respects_checkPattern arm.pattern hcheck 64 [], rfl⟩
    obtain ⟨call, hcalls, hcall⟩ := misaligns_of_cut hrespects hcut reached.rows
    refine hcall (h.aligned (reached.query checked.1) (mem_startedFrom hreached hcheck) call ?_)
    rw [MatchCoverage.query, hty]
    exact hcalls
  · intro huncut
    exact {
      exhaustive := fun haccepted value hvalue => checkMatch_exhaustive haccepted hvalue
      aligned := fun query hquery call hcalls =>
        ((htracks.good_started (List.Subset.refl arms) huncut query hquery).reaches hcalls).aligned
      inRange := by
        unfold checkMatch
        split
        · rename_i error herror
          rintro ⟨⟩
          exact htracks.arms_inRange (List.Subset.refl arms) huncut herror
        · exact (htracks.checkArms (List.Subset.refl arms) ‹_›).finish_inRange }

/-! ## A recursive enum -/

/-- `enum Chain { Link(Option<Chain>) }`. -/
def chain : Registry :=
  { structs := [],
    enums := [(0, ⟨[], [("Link", [.app .option [.app (.enum 0) []]])]⟩)],
    structName := fun _ => "",
    enumName := fun _ => "Chain",
    variantsOnce := by simp }

theorem coverageType_chain (levels : Nat) :
    coverageType chain (levels + 3) [] (.app (.enum 0) []) =
      .finite [(.variant "Link",
        [.finite [(.variant "Some", [.opened]), (.variant "None", [])]])] := by
  simp [coverageType, chain, sortByName, substitute, substituteAll]

/-- The pattern `Link(Some(Link(_)))` enters the enum a second time, and the check of its arm
indexes an empty list of types. -/
theorem nested_link_out_of_range :
    checkMatch chain (.app (.enum 0) [])
        [⟨.variant none "Link" [.variant none "Some" [.variant none "Link" [.wildcard]]], false⟩,
          ⟨.wildcard, false⟩] = .error .indexOutOfRange ∧
      ¬ MatchSound chain (.app (.enum 0) [])
        [⟨.variant none "Link" [.variant none "Some" [.variant none "Link" [.wildcard]]], false⟩,
          ⟨.wildcard, false⟩] := by
  refine ⟨?panic, fun h => h.inRange ?panic⟩
  rw [checkMatch, MatchCoverage.new, coverageType_chain 61]
  rfl

end Disp.Patterns

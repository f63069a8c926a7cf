import Disp.Ownership.Analyzer
import Mathlib.Data.Fintype.EquivFin

/-!
# Joins of ownership states

`merge_from` joins the states of two branches, `merge_loop` the states before a loop and at the
end of its body.  What is unavailable in one of the two states has to be unavailable in the
joined one, and loans and origins have to be kept.  `merge_from` is such a join.  `merge_loop`
takes the moved fields of the body alone.
-/

namespace Disp.Ownership

open List

/-! ## Availability -/

/-- A field or, with the empty path, the whole variable can be read, moved and borrowed. -/
def InitState.available : InitState → List String → Bool
  | .initialized, _ => true
  | .partially fields, field :: _ => !fields.contains field
  | .partially _, [] | .moved, _ | .uninitialized, _ => false

theorem ensureUsable_ok_iff (slot : Slot) (place : Place) :
    State.ensureUsable slot place = .ok () ↔ slot.state.available place.fields = true := by
  cases hstate : slot.state <;> cases hfields : place.fields <;>
    simp [State.ensureUsable, InitState.available, ensure, hstate, hfields]

theorem ensureInitialized_ok_iff (slot : Slot) (place : Place) :
    State.ensureInitialized slot place = .ok () ↔ slot.state.available place.fields = true := by
  cases hstate : slot.state <;> cases hfields : place.fields <;>
    simp [State.ensureInitialized, InitState.available, hstate, hfields]

/-- What is available in the joined state is available in both states. -/
def InitState.Joins (left right joined : InitState) : Prop :=
  ∀ path, joined.available path = true →
    left.available path = true ∧ right.available path = true

theorem mergeInit_joins (left right : InitState) :
    left.Joins right (State.mergeInit left right) := by
  intro path h
  cases path <;> cases left <;> cases right <;> simp_all [State.mergeInit, InitState.available]

/-- The pairs of states that `merge_loop` joins: nothing becomes uninitialised in the body, a
variable that is moved before it is not left with some fields moved, and a field that is moved
before it and given back in the body is given back with nothing else moved. -/
def InitState.loopJoinable : InitState → InitState → Prop
  | .initialized, .uninitialized | .partially _, .uninitialized | .moved, .partially _ => False
  | .partially before, .partially after => before ⊆ after
  | _, _ => True

theorem exists_other_field (fields : List String) : ∃ field, field ∉ fields := by
  obtain ⟨field, hfield⟩ := Infinite.exists_notMem_finset fields.toFinset
  exact ⟨field, fun hmem => hfield (mem_toFinset.mpr hmem)⟩

theorem mergeLoopInit_joins_iff (before body : InitState) :
    before.Joins body (State.mergeLoopInit before body) ↔ before.loopJoinable body := by
  cases before with
  | uninitialized => simp [InitState.Joins, State.mergeLoopInit, InitState.available,
      InitState.loopJoinable]
  | initialized =>
    cases body with
    | uninitialized =>
      refine iff_of_false (fun h => ?_) id
      exact Bool.noConfusion (h [] rfl).2
    | initialized | moved | partially =>
      simp [InitState.Joins, State.mergeLoopInit, InitState.available, InitState.loopJoinable]
  | moved =>
    cases body with
    | partially fields =>
      refine iff_of_false (fun h => ?_) id
      obtain ⟨field, hfield⟩ := exists_other_field fields
      have havail : (InitState.partially fields).available [field] = true := by
        simpa [InitState.available] using hfield
      exact Bool.noConfusion (h [field] havail).1
    | uninitialized | initialized | moved =>
      simp [InitState.Joins, State.mergeLoopInit, InitState.available, InitState.loopJoinable]
  | partially fields =>
    cases body with
    | uninitialized =>
      refine iff_of_false (fun h => ?_) id
      obtain ⟨field, hfield⟩ := exists_other_field fields
      have havail : (InitState.partially fields).available [field] = true := by
        simpa [InitState.available] using hfield
      exact Bool.noConfusion (h [field] havail).2
    | initialized | moved =>
      simp [InitState.Joins, State.mergeLoopInit, InitState.available, InitState.loopJoinable]
    | partially after =>
      refine ⟨fun h field hfield => ?_, fun hsub path havail => ?_⟩
      · by_contra hnot
        have havail : (InitState.partially after).available [field] = true := by
          simpa [InitState.available] using hnot
        have hbefore := (h [field] havail).1
        simp [InitState.available, hfield] at hbefore
      · refine ⟨?_, havail⟩
        cases path with
        | nil => cases havail
        | cons field rest =>
          simp only [State.mergeLoopInit, InitState.available, Bool.not_eq_true',
            contains_eq_mem, decide_eq_false_iff_not] at havail ⊢
          exact fun hmem => havail (hsub hmem)

/-! ## Origins and loans -/

theorem mem_insertOrigin {origin other : Origin} {origins : List Origin} :
    origin ∈ insertOrigin other origins ↔ origin = other ∨ origin ∈ origins := by
  induction origins with
  | nil => simp [insertOrigin]
  | cons first rest ih =>
    rw [insertOrigin]
    split
    · rename_i heq
      simp [heq]
    · split
      · simp
      · simp only [mem_cons]
        tauto

theorem mem_sortOrigins {origin : Origin} {origins : List Origin} :
    origin ∈ sortOrigins origins ↔ origin ∈ origins := by
  induction origins with
  | nil => simp [sortOrigins]
  | cons first rest ih =>
    rw [sortOrigins, foldr_cons, mem_insertOrigin, mem_cons]
    exact or_congr_right ih

theorem mem_joinLoans {loan : Loan} {left right : List Loan} :
    loan ∈ State.joinLoans left right ↔ loan ∈ left ∨ loan ∈ right := by
  induction right generalizing left with
  | nil => simp [State.joinLoans]
  | cons first rest ih =>
    rw [State.joinLoans, foldl_cons, ← State.joinLoans, ih]
    split
    · rename_i hmem
      rw [contains_iff_mem] at hmem
      constructor
      · rintro (h | h)
        · exact .inl h
        · exact .inr (mem_cons_of_mem _ h)
      · rintro (h | h)
        · exact .inl h
        · rcases mem_cons.mp h with rfl | h
          · exact .inl hmem
          · exact .inr h
    · simp only [mem_append, mem_cons]
      tauto

/-! ## Closures -/

/-- The analyzer's state with the places that the closures in its slots have captured. -/
structure Analysis where
  state : State
  closureOrigins : SlotId → List Origin

namespace Analysis

/-- `merge_from` and `merge_loop`, which differ in how they join initialization. -/
def mergeWith (join : InitState → InitState → InitState) (self left right : Analysis) :
    Analysis where
  state := State.mergeWith join self.state left.state right.state
  closureOrigins := fun id =>
    match self.state.slots id, left.state.slots id, right.state.slots id with
    | some _, some _, some _ => sortOrigins (left.closureOrigins id ++ right.closureOrigins id)
    | _, _, _ => self.closureOrigins id

def mergeFrom (self left right : Analysis) : Analysis :=
  mergeWith State.mergeInit self left right

def mergeLoop (self before body : Analysis) : Analysis :=
  mergeWith State.mergeLoopInit self before body

/-- Two states over the same variables. -/
def SameVariables (first second : Analysis) : Prop :=
  ∀ id, (first.state.slots id).isSome = (second.state.slots id).isSome

/-- Every variable of the two states is joined, and no loan or origin is lost. -/
structure JoinOf (left right joined : Analysis) : Prop where
  slots : ∀ id a b, left.state.slots id = some a → right.state.slots id = some b →
    ∃ slot, joined.state.slots id = some slot ∧ a.state.Joins b.state slot.state ∧
      (∀ origin, origin ∈ a.borrowOrigins ∨ origin ∈ b.borrowOrigins →
        origin ∈ slot.borrowOrigins) ∧
      ∀ origin, origin ∈ left.closureOrigins id ∨ origin ∈ right.closureOrigins id →
        origin ∈ joined.closureOrigins id
  loans : ∀ loan, loan ∈ left.state.loans ∨ loan ∈ right.state.loans → loan ∈ joined.state.loans

/-- A merge is a join exactly if it joins initialization. -/
theorem mergeWith_joinOf_iff (join : InitState → InitState → InitState)
    {self left right : Analysis} (hleft : self.SameVariables left) :
    JoinOf left right (mergeWith join self left right) ↔
      ∀ id a b, left.state.slots id = some a → right.state.slots id = some b →
        a.state.Joins b.state (join a.state b.state) := by
  have hself : ∀ id a, left.state.slots id = some a → ∃ slot, self.state.slots id = some slot := by
    intro id a ha
    have hsome := hleft id
    rw [ha] at hsome
    exact Option.isSome_iff_exists.mp hsome
  constructor
  · intro h id a b ha hb
    obtain ⟨old, hold⟩ := hself id a ha
    obtain ⟨slot, hslot, hjoins, -⟩ := h.slots id a b ha hb
    simp only [mergeWith, State.mergeWith, hold, ha, hb, Option.some.injEq] at hslot
    subst hslot
    exact hjoins
  · intro h
    refine ⟨fun id a b ha hb => ?_, fun loan => mem_joinLoans.mpr⟩
    obtain ⟨old, hold⟩ := hself id a ha
    refine ⟨State.mergeSlot join old a b, ?_, h id a b ha hb, fun origin horigin => ?_,
      fun origin horigin => ?_⟩
    · simp only [mergeWith, State.mergeWith, hold, ha, hb]
    · exact mem_sortOrigins.mpr (mem_append.mpr horigin)
    · simp only [mergeWith, hold, ha, hb]
      exact mem_sortOrigins.mpr (mem_append.mpr horigin)

/-- Both merges are joins exactly if `merge_loop` meets none of the pairs of states that it does
not join. -/
theorem merges_join_iff (self left right : Analysis) (hleft : self.SameVariables left) :
    (JoinOf left right (self.mergeFrom left right) ∧
        JoinOf left right (self.mergeLoop left right)) ↔
      ∀ id a b, left.state.slots id = some a → right.state.slots id = some b →
        a.state.loopJoinable b.state := by
  rw [mergeFrom, mergeLoop, mergeWith_joinOf_iff _ hleft, mergeWith_joinOf_iff _ hleft]
  constructor
  · rintro ⟨-, h⟩ id a b ha hb
    exact (mergeLoopInit_joins_iff _ _).mp (h id a b ha hb)
  · intro h
    exact ⟨fun id a b _ _ => mergeInit_joins _ _,
      fun id a b ha hb => (mergeLoopInit_joins_iff _ _).mpr (h id a b ha hb)⟩

end Analysis

/-! ## A loop that gives one field back and moves another -/

/-- The variable `x` of a type with the fields `a` and `b`. -/
def pairSlot (state : InitState) : Slot :=
  ⟨"x", .owned "Pair", true, state, 0, false, none, []⟩

def pairState (state : InitState) : Analysis where
  state := ⟨fun id => if id = 0 then some (pairSlot state) else none, [[("x", 0)]], [], 1⟩
  closureOrigins := fun _ => []

theorem pairState_join : (Analysis.JoinOf (pairState (.partially ["a"])) (pairState .moved)
        ((pairState .initialized).mergeFrom (pairState (.partially ["a"])) (pairState .moved)) ∧
      Analysis.JoinOf (pairState (.partially ["a"])) (pairState .moved)
        ((pairState .initialized).mergeLoop (pairState (.partially ["a"]))
          (pairState .moved))) := by
  refine (Analysis.merges_join_iff _ _ _ fun id => ?_).mpr ?_
  · by_cases h : id = 0 <;> simp [pairState, h]
  · intro id a b ha hb
    by_cases h : id = 0
    · simp only [pairState, h, if_true, Option.some.injEq] at ha hb
      subst ha hb
      trivial
    · simp [pairState, h] at ha

/-- Before the loop `x.a` is moved; the body gives it back and moves `x.b`.  After the merge
`x.a` can be read, although the body may not have run. -/
theorem moved_field_forgotten : ¬ Analysis.JoinOf (pairState (.partially ["a"]))
    (pairState (.partially ["b"]))
    ((pairState .initialized).mergeLoop (pairState (.partially ["a"]))
      (pairState (.partially ["b"]))) := by
  intro h
  obtain ⟨slot, hslot, hjoins, -⟩ := h.slots 0 _ _ rfl rfl
  cases hslot
  exact Bool.noConfusion (hjoins ["a"] (by decide)).1

end Disp.Ownership

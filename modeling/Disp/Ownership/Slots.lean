import Disp.Library.Codec
import Disp.Ownership.Analyzer

/-!
# What the checker does to its slots

Which slots each operation of the analyzer changes and how.  Loans and origins
decide whether a program is accepted, but no operation on them touches the
rest of a slot.
-/

namespace Disp.Ownership

open Disp.Library List Option
open Disp.Library.Codec (bind_eq_ok)

def Slot.core (slot : Slot) : Slot :=
  { slot with referenceOrigin := none, borrowOrigins := [] }

def Slot.fixed (slot : Slot) : Slot :=
  { slot.core with state := .uninitialized }

namespace State

variable {a b c state : State} {slot' : Slot} {origins : List Origin} {after before : State}
  {name : String} {ty : Ty} {mutable initialized : Bool} {origin : Option Place}

/-- The same scopes and slots, up to loans and origins. -/
structure SameCore (before after : State) : Prop where
  scopes : after.scopes = before.scopes
  nextSlot : after.nextSlot = before.nextSlot
  slots : ∀ id, (after.slots id).map Slot.core = (before.slots id).map Slot.core

theorem SameCore.refl (state : State) : SameCore state state :=
  ⟨rfl, rfl, fun _ => rfl⟩

theorem SameCore.trans (hab : SameCore a b) (hbc : SameCore b c) : SameCore a c where
  scopes := hbc.scopes.trans hab.scopes
  nextSlot := hbc.nextSlot.trans hab.nextSlot
  slots id := (hbc.slots id).trans (hab.slots id)

theorem SameCore.symm (h : SameCore a b) : SameCore b a where
  scopes := h.scopes.symm
  nextSlot := h.nextSlot.symm
  slots id := (h.slots id).symm

variable {id : SlotId}

theorem SameCore.slot {before after : State} (h : SameCore before after)
    {slot : Slot} (hslot : after.slots id = some slot) :
    ∃ slot', before.slots id = some slot' ∧ slot.core = slot'.core := by
  have hcore := h.slots id
  rw [hslot] at hcore
  obtain ⟨slot', hslot', hsame⟩ := map_eq_some_iff.mp hcore.symm
  exact ⟨slot', hslot', hsame.symm⟩

theorem sameCore_addLoan (state : State) (place : Place) (mutable : Bool)
    (borrower : Option SlotId) : SameCore state (state.addLoan place mutable borrower) :=
  ⟨rfl, rfl, fun _ => rfl⟩

theorem sameCore_dropLoans (state : State) (id : SlotId) :
    SameCore state (state.dropLoans id) := ⟨rfl, rfl, fun _ => rfl⟩

theorem sameCore_expireLoans (state : State) (index : Nat) (lastUses : String → Option Nat) :
    SameCore state (state.expireLoans index lastUses) := ⟨rfl, rfl, fun _ => rfl⟩

theorem sameCore_releaseUnused (state : State) (id : SlotId) (name : String) (index : Nat)
    (lastUses : String → Option Nat) :
    SameCore state (state.releaseUnused id name index lastUses) := by
  unfold releaseUnused
  split_ifs
  · exact sameCore_dropLoans state id
  · exact SameCore.refl state

theorem slot_eq_ok {slot : Slot} (h : state.slot id = .ok slot) : state.slots id = some slot := by
  unfold State.slot at h
  cases hslot : state.slots id with
  | none =>
    rw [hslot] at h
    cases h
  | some slot' =>
    rw [hslot] at h
    exact congrArg some (Except.ok.inj h)

theorem slots_setSlot_self (state : State) (id : SlotId) (slot : Slot) :
    (state.setSlot id slot).slots id = some slot :=
  Function.update_self ..

theorem slots_setSlot_of_ne (state : State) {other : SlotId} (slot : Slot)
    (h : other ≠ id) : (state.setSlot id slot).slots other = state.slots other :=
  Function.update_of_ne h ..

theorem sameCore_setSlot {slot : Slot} (h : state.slots id = some slot)
    (hcore : slot'.core = slot.core) : SameCore state (state.setSlot id slot') := by
  refine ⟨rfl, rfl, fun other => ?_⟩
  by_cases heq : other = id
  · rw [heq, h, slots_setSlot_self, map_some, map_some, hcore]
  · rw [slots_setSlot_of_ne state slot' heq]

theorem sameCore_borrowAll (h : borrowAll id origins state = .ok after) : SameCore state after := by
  induction origins generalizing state with
  | nil =>
    cases h
    exact SameCore.refl _
  | cons origin origins ih =>
    simp only [borrowAll] at h
    cases hborrow : state.checkBorrow origin.1 origin.2 with
    | error _ =>
      rw [hborrow] at h
      cases h
    | ok _ =>
      rw [hborrow] at h
      exact (sameCore_addLoan _ _ _ _).trans (ih h)

theorem sameCore_attachBorrowOrigins
    (h : state.attachBorrowOrigins id origins = .ok after) : SameCore state after := by
  unfold attachBorrowOrigins at h
  dsimp only at h
  split_ifs at h
  · cases h
    exact SameCore.refl state
  · obtain ⟨middle, hborrow, hrest⟩ := bind_eq_ok h
    obtain ⟨slot, hslot, hset⟩ := bind_eq_ok hrest
    cases hset
    have hmid := sameCore_borrowAll hborrow
    have hcore : SameCore state middle := ⟨hmid.scopes, hmid.nextSlot, hmid.slots⟩
    exact hcore.trans (sameCore_setSlot (slot_eq_ok hslot) rfl)

/-! ## Well-formed states -/

/-- The names in scope have slots of their own. -/
structure Wf (state : State) : Prop where
  distinct : (Frames.values state.scopes).Nodup
  allocated : ∀ id ∈ Frames.values state.scopes, id < state.nextSlot
  known : ∀ id ∈ Frames.values state.scopes, (state.slots id).isSome = true

theorem Wf.sameCore (h : before.Wf) (hcore : SameCore before after) : after.Wf := by
  refine ⟨hcore.scopes ▸ h.distinct, ?_, ?_⟩
  · rw [hcore.scopes, hcore.nextSlot]
    exact h.allocated
  · intro id hid
    rw [hcore.scopes] at hid
    have hslots := congrArg Option.isSome (hcore.slots id)
    rw [isSome_map, isSome_map] at hslots
    rw [hslots]
    exact h.known id hid

theorem Wf.setSlot (h : state.Wf) (id : SlotId) (slot : Slot) : (state.setSlot id slot).Wf := by
  refine ⟨h.distinct, h.allocated, fun other hother => ?_⟩
  by_cases heq : other = id
  · rw [heq, slots_setSlot_self]
    rfl
  · rw [slots_setSlot_of_ne state slot heq]
    exact h.known other hother

theorem Wf.pushScope (h : state.Wf) : state.pushScope.Wf :=
  ⟨h.distinct, h.allocated, h.known⟩

theorem values_cons (scope : List (String × SlotId)) (scopes : Frames String SlotId) :
    Frames.values (scope :: scopes) = scope.map Prod.snd ++ Frames.values scopes := by
  simp [Frames.values]

theorem declare_eq_ok (h : state.declare name ty mutable initialized origin = .ok (id, after)) :
    ∃ scope scopes slot, state.scopes = scope :: scopes ∧ List.lookup name scope = none ∧
      id = state.nextSlot ∧
      slot.ty = ty ∧
      slot.state = (if initialized then .initialized else .uninitialized) ∧
      after = { state.setSlot state.nextSlot slot with
        scopes := Frames.declare name state.nextSlot state.scopes
        nextSlot := state.nextSlot + 1 } := by
  unfold State.declare at h
  cases hscopes : state.scopes with
  | nil =>
    rw [hscopes] at h
    cases h
  | cons scope scopes =>
    rw [hscopes] at h
    dsimp only at h
    cases hlook : List.lookup name scope with
    | some _ =>
      rw [hlook] at h
      cases h
    | none =>
      rw [hlook] at h
      obtain ⟨rfl, rfl⟩ := Prod.mk.inj (Except.ok.inj h)
      exact ⟨scope, scopes, _, rfl, hlook, rfl, rfl, rfl, rfl⟩

theorem Wf.declare (hwf : state.Wf)
    (h : state.declare name ty mutable initialized origin = .ok (id, after)) : after.Wf := by
  obtain ⟨scope, scopes, slot, hscopes, -, -, -, -, rfl⟩ := declare_eq_ok h
  have hvals : Frames.values (Frames.declare name state.nextSlot state.scopes) =
      state.nextSlot :: Frames.values state.scopes := by
    rw [hscopes]
    simp [Frames.declare, Frames.values]
  have hfresh : state.nextSlot ∉ Frames.values state.scopes :=
    fun hin => Nat.lt_irrefl _ (hwf.allocated _ hin)
  refine ⟨?_, ?_, ?_⟩
  · rw [hvals, nodup_cons]
    exact ⟨hfresh, hwf.distinct⟩
  · intro id hid
    rw [hvals, mem_cons] at hid
    rcases hid with rfl | hid
    · exact Nat.lt_succ_self _
    · exact Nat.lt_succ_of_lt (hwf.allocated id hid)
  · intro id hid
    rw [hvals, mem_cons] at hid
    rcases hid with rfl | hid
    · rw [slots_setSlot_self]
      rfl
    · have hne : id ≠ state.nextSlot := by
        rintro rfl
        exact hfresh hid
      rw [slots_setSlot_of_ne state slot hne]
      exact hwf.known id hid

/-! ## Evolution of a state

While a block is checked names are added to its scope, and slots that exist keep
everything but their state and origins. -/

structure Evolves (before after : State) : Prop where
  head : ∃ added, after.scopes.head? = before.scopes.head?.map (added ++ ·) ∧
    ∀ entry ∈ added, before.nextSlot ≤ entry.2
  tail : after.scopes.tail = before.scopes.tail
  nextSlot : before.nextSlot ≤ after.nextSlot
  slots : ∀ id, id < before.nextSlot →
    (after.slots id).map Slot.fixed = (before.slots id).map Slot.fixed

theorem Evolves.refl (state : State) : Evolves state state where
  head := ⟨[], by cases state.scopes <;> rfl, by simp⟩
  tail := rfl
  nextSlot := le_rfl
  slots _ _ := rfl

theorem Evolves.trans (hab : Evolves a b) (hbc : Evolves b c) : Evolves a c where
  head := by
    obtain ⟨first, hfirst, hnew⟩ := hab.head
    obtain ⟨second, hsecond, hnew'⟩ := hbc.head
    refine ⟨second ++ first, ?_, ?_⟩
    · rw [hsecond, hfirst, Option.map_map]
      congr 1
      funext scope
      simp
    · intro entry hentry
      rcases mem_append.mp hentry with hentry | hentry
      · exact hab.nextSlot.trans (hnew' entry hentry)
      · exact hnew entry hentry
  tail := hbc.tail.trans hab.tail
  nextSlot := hab.nextSlot.trans hbc.nextSlot
  slots id hid := (hbc.slots id (hid.trans_le hab.nextSlot)).trans (hab.slots id hid)

theorem fixed_of_core {slot : Slot} (h : slot.core = slot'.core) : slot.fixed = slot'.fixed := by
  unfold Slot.fixed
  rw [h]

theorem SameCore.evolves (h : SameCore before after) : Evolves before after where
  head := ⟨[], by rw [h.scopes]; cases before.scopes <;> rfl, by simp⟩
  tail := by rw [h.scopes]
  nextSlot := h.nextSlot.ge
  slots id _ := by
    have hcore := h.slots id
    cases ha : after.slots id with
    | none =>
      rw [ha] at hcore
      cases hb : before.slots id with
      | none => rfl
      | some _ =>
        rw [hb] at hcore
        cases hcore
    | some slot =>
      obtain ⟨slot', hbefore, hslot⟩ := h.slot ha
      rw [hbefore, map_some, map_some, fixed_of_core hslot]

theorem evolves_setState {slot : Slot} (h : state.slots id = some slot)
    (new : InitState) : Evolves state (state.setSlot id { slot with state := new }) where
  head := ⟨[], by cases h : state.scopes <;> simp [setSlot, h], by simp⟩
  tail := rfl
  nextSlot := le_rfl
  slots other _ := by
    by_cases heq : other = id
    · rw [heq, slots_setSlot_self, h]
      rfl
    · rw [slots_setSlot_of_ne state _ heq]

theorem evolves_declare (h : state.declare name ty mutable initialized origin = .ok (id, after)) :
    Evolves state after := by
  obtain ⟨scope, scopes, slot, hscopes, -, -, -, -, rfl⟩ := declare_eq_ok h
  refine ⟨⟨[(name, state.nextSlot)], ?_, by simp⟩, ?_, Nat.le_succ _, fun other hother => ?_⟩
  · rw [hscopes]
    rfl
  · rw [hscopes]
    rfl
  · rw [slots_setSlot_of_ne state slot (Nat.ne_of_lt hother)]

/-- A state after a block, with the scopes from before it. -/
structure Restores (before after : State) : Prop where
  scopes : after.scopes = before.scopes
  slots : ∀ id, id < before.nextSlot →
    (after.slots id).map Slot.fixed = (before.slots id).map Slot.fixed

theorem Restores.refl (state : State) : Restores state state := ⟨rfl, fun _ _ => rfl⟩

theorem Restores.slot {before after : State} (h : Restores before after)
    (hid : id < before.nextSlot) {slot : Slot} (hslot : before.slots id = some slot) :
    ∃ slot', after.slots id = some slot' ∧ slot'.fixed = slot.fixed := by
  have hfixed := h.slots id hid
  rw [hslot] at hfixed
  exact map_eq_some_iff.mp hfixed

theorem Evolves.restores {middle : State} (h : Evolves before middle)
    (hscopes : middle.scopes = before.scopes) (hafter : Restores middle after) :
    Restores before after :=
  ⟨hafter.scopes.trans hscopes, fun id hid =>
    (hafter.slots id (hid.trans_le h.nextSlot)).trans (h.slots id hid)⟩

/-- Leaving a block restores the scopes it was entered with. -/
theorem Evolves.popScope (h : Evolves before.pushScope after) : Restores before after.popScope := by
  obtain ⟨added, hhead, hnew⟩ := h.head
  have htail := h.tail
  simp only [State.pushScope, List.head?_cons, map_some, append_nil] at hhead htail
  unfold State.popScope
  cases hscopes : after.scopes with
  | nil =>
    rw [hscopes] at hhead
    cases hhead
  | cons scope scopes =>
    rw [hscopes] at hhead htail
    cases hhead
    refine ⟨htail, fun id hid => ?_⟩
    have hnot : (added.map Prod.snd).contains id = false := by
      rw [← Bool.not_eq_true, contains_iff_mem, List.mem_map]
      rintro ⟨entry, hentry, rfl⟩
      exact Nat.not_lt.mpr (hnew entry hentry) hid
    simp only [hnot]
    exact h.slots id hid

/-! ## Joining states -/

section Merge

variable {join : InitState → InitState → InitState} {state left right : State}

theorem slots_mergeWith (hwf : state.Wf) (hleft : Restores state left)
    (hright : Restores state right) {id : SlotId} (hid : id ∈ Frames.values state.scopes) :
    ∃ slot a b, left.slots id = some a ∧ right.slots id = some b ∧
      (mergeWith join state left right).slots id = some (mergeSlot join slot a b) ∧
      a.fixed = slot.fixed ∧ b.fixed = slot.fixed := by
  have hlt := hwf.allocated id hid
  obtain ⟨slot, hslot⟩ := isSome_iff_exists.mp (hwf.known id hid)
  obtain ⟨a, ha, hafixed⟩ := hleft.slot hlt hslot
  obtain ⟨b, hb, hbfixed⟩ := hright.slot hlt hslot
  refine ⟨slot, a, b, ha, hb, ?_, hafixed, hbfixed⟩
  simp only [mergeWith, hslot, ha, hb]

theorem fixed_mergeWith (id : SlotId) :
    ((mergeWith join state left right).slots id).map Slot.fixed =
      (state.slots id).map Slot.fixed := by
  simp only [mergeWith]
  cases state.slots id with
  | none => rfl
  | some slot =>
    cases left.slots id with
    | none => rfl
    | some a =>
      cases right.slots id with
      | none => rfl
      | some b => rfl

theorem evolves_mergeWith : Evolves state (mergeWith join state left right) where
  head := ⟨[], by cases h : state.scopes <;> simp [mergeWith, h], by simp⟩
  tail := rfl
  nextSlot := le_rfl
  slots id _ := fixed_mergeWith id

theorem Wf.mergeWith (hwf : state.Wf) : (mergeWith join state left right).Wf := by
  refine ⟨hwf.distinct, hwf.allocated, fun id hid => ?_⟩
  have hfixed := congrArg Option.isSome (@fixed_mergeWith join state left right id)
  rw [isSome_map, isSome_map] at hfixed
  rw [hfixed]
  exact hwf.known id hid

end Merge

end State

end Disp.Ownership

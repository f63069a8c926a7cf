import Disp.Ownership.Joins
import Disp.Ownership.Refinement

/-!
# Initialization field by field

A variable of a nested struct type is moved from, read, borrowed and assigned by field paths.
The checker keeps one key for each field of the variable, whatever the depth of the path.  Here
its state is compared with the places that really exist: every field path is tracked on its own.
The two agree as long as a field path is only assigned to give back what was moved out of it.
-/

namespace Disp.Ownership

open Disp.Library List Option
open Disp.Library.Codec (bind_eq_ok)

variable {program : Program} {ty : Ty} {field other : String}

/-! ## Places of a variable -/

/-- The type of the place that a path of declared fields leads to. -/
def Program.fieldTy (program : Program) : Ty → List String → Option Ty
  | ty, [] => some ty
  | .owned name, field :: fields =>
    if field = "<deref>" then none
    else
      match program.structs.find? fun declaration => declaration.name == name with
      | none => none
      | some declaration =>
        match declaration.fields.lookup field with
        | none => none
        | some ty => fieldTy program ty fields
  | _, _ :: _ => none

/-- The path leads to a field, or to the whole variable. -/
def Program.IsPlace (program : Program) (ty : Ty) (path : List String) : Prop :=
  (program.fieldTy ty path).isSome = true

/-- A place without fields. -/
def Program.IsLeaf (program : Program) (ty : Ty) (path : List String) : Prop :=
  program.IsPlace ty path ∧ ∀ field, ¬ program.IsPlace ty (path ++ [field])

/-- A type of nested structs whose leaves are not `Copy`. -/
structure Program.Nested (program : Program) (ty : Ty) : Prop where
  owned : ∀ path inner, program.fieldTy ty path = some inner → program.tyIsCopy inner = false
  leaf : ∀ path, program.IsPlace ty path → ∃ leaf, path <+: leaf ∧ program.IsLeaf ty leaf

theorem placeTy_of_fieldTy {inner : Ty} {path : List String}
    (h : program.fieldTy ty path = some inner) : placeTy program ty path = .ok inner := by
  fun_induction Program.fieldTy program ty path with
  | case1 ty =>
    cases h
    simp [placeTy]
  | case2 | case3 | case4 | case6 => cases h
  | case5 name field fields hfield declaration hfind ty hlook ih =>
    simp only [placeTy, if_neg hfield, hfind, hlook]
    exact ih h

theorem Program.IsPlace.of_append {path rest : List String}
    (h : program.IsPlace ty (path ++ rest)) : program.IsPlace ty path := by
  unfold Program.IsPlace at h ⊢
  fun_induction Program.fieldTy program ty path with
  | case1 ty => rfl
  | case2 | case6 => simp [Program.fieldTy] at h
  | case3 name field fields hfield hfind =>
    simp [Program.fieldTy, hfind] at h
  | case4 name field fields hfield declaration hfind hlook =>
    simp [Program.fieldTy, hfind, hlook] at h
  | case5 name field fields hfield declaration hfind ty hlook ih =>
    apply ih
    simpa [Program.fieldTy, hfield, hfind, hlook] using h

theorem Program.IsPlace.enclosing {path place : List String} (h : program.IsPlace ty place)
    (hbelow : path <+: place) : program.IsPlace ty path := by
  obtain ⟨rest, rfl⟩ := hbelow
  exact h.of_append

/-! ## Operations -/

/-- What a statement does to the variable, by the path it names. -/
inductive Operation
  | read (path : List String)
  | move (path : List String)
  | borrow (path : List String)
  | assign (path : List String)
  deriving DecidableEq, Repr

namespace Operation

def path : Operation → List String
  | read path | move path | borrow path | assign path => path

/-- The operation of `use_place`. -/
def ofMode (mode : UseMode) (path : List String) : Operation :=
  if mode = .consume then move path else read path

def usable : Operation → InitState → Bool
  | read path, state | move path, state | borrow path, state => state.available path
  | assign _, _ => true

def record : Operation → InitState → InitState
  | move path, state => State.InitState.moveOut state path
  | assign path, state => State.InitState.assign state path
  | read _, state | borrow _, state => state

end Operation

abbrev Contents := List String → Bool

namespace Contents

/-- Every leaf under the place is initialized. -/
def Complete (program : Program) (ty : Ty) (contents : Contents) (path : List String) : Prop :=
  ∀ leaf, program.IsLeaf ty leaf → path <+: leaf → contents leaf = true

/-- What an operation does to the places: a value that is moved out goes with all its fields,
and one that is assigned comes with all its fields. -/
def apply : Operation → Contents → Contents
  | .move path, contents => fun place => contents place && !path.isPrefixOf place
  | .assign path, contents => fun place => contents place || path.isPrefixOf place
  | .read _, contents | .borrow _, contents => contents

def Allows (program : Program) (ty : Ty) (contents : Contents) : Operation → Prop
  | .read path | .move path | .borrow path => contents.Complete program ty path
  | .assign [] => True
  | .assign (field :: fields) => contents (field :: fields).dropLast = true

end Contents

def InitState.Tracks (program : Program) (ty : Ty) (state : InitState) (contents : Contents) :
    Prop :=
  ∀ path, program.IsPlace ty path → state.available path = true →
    contents.Complete program ty path

def usableAll : List Operation → InitState → Bool
  | [], _ => true
  | operation :: operations, state =>
    operation.usable state && usableAll operations (operation.record state)

/-- Every operation of the sequence is allowed where it happens.  The same holds where the
sequence is cut off and another use follows that the checker lets pass. -/
def SoundRun (program : Program) (ty : Ty) : List Operation → InitState → Contents → Prop
  | [], state, contents => state.Tracks program ty contents
  | operation :: operations, state, contents =>
    state.Tracks program ty contents ∧ contents.Allows program ty operation ∧
      SoundRun program ty operations (operation.record state) (contents.apply operation)

/-! ## Giving back what was moved -/

abbrev Moves := List (List String)

def Moves.last (moves : Moves) (field : String) : Option (List String) :=
  moves.find? fun path => path.head? = some field

def Operation.note : Operation → Moves → Moves
  | .move path, moves => path :: moves
  | .read _, moves | .borrow _, moves | .assign _, moves => moves

/-- A field path is assigned in a variable that holds a value, and where something was moved out
of its first field, it is at or under the assigned path. -/
def Operation.givesBack : Operation → InitState → Moves → Bool
  | .assign (_ :: _), .moved, _ | .assign (_ :: _), .uninitialized, _ => false
  | .assign (field :: path), .partially fields, moves =>
    !fields.contains field || (moves.last field).any (field :: path).isPrefixOf
  | _, _, _ => true

def givesBackAll : List Operation → InitState → Moves → Bool
  | [], _, _ => true
  | operation :: operations, state, moves =>
    operation.givesBack state moves &&
      givesBackAll operations (operation.record state) (operation.note moves)

/-- Exactly what the last moves out of the fields took is missing. -/
structure Missing (program : Program) (ty : Ty) (fields : List String) (contents : Contents)
    (moves : Moves) : Prop where
  recorded : ∀ field ∈ fields, ∃ path, moves.last field = some path ∧ program.IsPlace ty path
  exactly : ∀ place, program.IsPlace ty place →
    (contents place = false ↔
      ∃ field ∈ fields, ∃ path, moves.last field = some path ∧ path <+: place)

def Agrees (program : Program) (ty : Ty) : InitState → Contents → Moves → Prop
  | .initialized, contents, _ => ∀ place, program.IsPlace ty place → contents place = true
  | .moved, contents, _ | .uninitialized, contents, _ => ∀ place, contents place = false
  | .partially fields, contents, moves => Missing program ty fields contents moves

theorem Moves.head_of_last {moves : Moves} {path : List String} (h : moves.last field = some path) :
    path.head? = some field := by
  have hfound := List.find?_some h
  exact of_decide_eq_true hfound

theorem Moves.last_cons_self (moves : Moves) (field : String) (path : List String) :
    Moves.last ((field :: path) :: moves) field = some (field :: path) := by
  simp [Moves.last]

theorem Moves.last_cons_of_ne (moves : Moves) (path : List String) (h : field ≠ other) :
    Moves.last ((field :: path) :: moves) other = moves.last other := by
  simp [Moves.last, h]

theorem field_eq_of_below {path place : List String} {fields : List String}
    (hpath : path.head? = some other) (hbelow : path <+: place)
    (hplace : (field :: fields) <+: place) : other = field := by
  obtain ⟨rest, rfl⟩ := hbelow
  cases path with
  | nil => cases hpath
  | cons first path =>
    cases hpath
    exact (cons_prefix_cons.mp hplace).1.symm

section Agreement

variable {program : Program} {ty : Ty} {state : InitState} {contents : Contents} {moves : Moves}
  {fields : List String} {operation : Operation}

theorem Missing.move (h : Missing program ty fields contents moves) (hfresh : field ∉ fields)
    {path : List String} (hplace : program.IsPlace ty (field :: path)) :
    Missing program ty (field :: fields) (contents.apply (.move (field :: path)))
      ((field :: path) :: moves) := by
  have hlast : ∀ other ∈ fields,
      Moves.last ((field :: path) :: moves) other = moves.last other := by
    intro other hother
    apply Moves.last_cons_of_ne
    rintro rfl
    exact hfresh hother
  refine ⟨fun other hother => ?_, fun place hin => ?_⟩
  · rcases mem_cons.mp hother with rfl | hother
    · exact ⟨_, Moves.last_cons_self .., hplace⟩
    · rw [hlast other hother]
      exact h.recorded other hother
  · have hothers : (∃ other ∈ fields, ∃ moved,
        Moves.last ((field :: path) :: moves) other = some moved ∧ moved <+: place) ↔
        contents place = false := by
      rw [h.exactly place hin]
      constructor
      · rintro ⟨other, hother, moved, hmoved, hbelow⟩
        exact ⟨other, hother, moved, hlast other hother ▸ hmoved, hbelow⟩
      · rintro ⟨other, hother, moved, hmoved, hbelow⟩
        exact ⟨other, hother, moved, (hlast other hother).symm ▸ hmoved, hbelow⟩
    simp only [mem_cons, exists_eq_or_imp, Moves.last_cons_self, Option.some.injEq,
      exists_eq_left', hothers]
    simp only [Contents.apply, Bool.and_eq_false_iff, Bool.not_eq_false',
      List.isPrefixOf_iff_prefix]
    exact or_comm

/-- What is still missing after a field path is assigned that gives back what was moved out of
its first field. -/
theorem Missing.assigned (h : Missing program ty fields contents moves) {path : List String}
    (hback : field ∈ fields → ∃ moved, moves.last field = some moved ∧ (field :: path) <+: moved)
    {place : List String} (hplace : program.IsPlace ty place) :
    contents.apply (.assign (field :: path)) place = false ↔
      ∃ other ∈ fields.filter (· ≠ field), ∃ moved,
        moves.last other = some moved ∧ moved <+: place := by
  simp only [Contents.apply, Bool.or_eq_false_iff, h.exactly place hplace]
  constructor
  · rintro ⟨⟨other, hother, moved, hmoved, hbelow⟩, hoff⟩
    refine ⟨other, ?_, moved, hmoved, hbelow⟩
    rw [mem_filter]
    refine ⟨hother, decide_eq_true ?_⟩
    rintro rfl
    obtain ⟨last, hlast, hunder⟩ := hback hother
    obtain rfl := Option.some.inj (hlast.symm.trans hmoved)
    rw [List.isPrefixOf_iff_prefix.mpr (hunder.trans hbelow)] at hoff
    cases hoff
  · rintro ⟨other, hother, moved, hmoved, hbelow⟩
    obtain ⟨hmem, hne⟩ := mem_filter.mp hother
    refine ⟨⟨other, hmem, moved, hmoved, hbelow⟩, ?_⟩
    rw [← Bool.not_eq_true, List.isPrefixOf_iff_prefix]
    intro hunder
    exact of_decide_eq_true hne (field_eq_of_below (Moves.head_of_last hmoved) hbelow hunder)

variable (h : Agrees program ty state contents moves)

include h

theorem Agrees.tracks : state.Tracks program ty contents := by
  intro path hpath havail leaf hleaf hunder
  cases state with
  | initialized => exact h leaf hleaf.1
  | moved | uninitialized => cases havail
  | partially fields =>
    cases path with
    | nil => cases havail
    | cons field path =>
      rw [← Bool.not_eq_false]
      intro hgone
      obtain ⟨other, hother, moved, hlast, hbelow⟩ :=
        (Missing.exactly h leaf hleaf.1).mp hgone
      have heq := field_eq_of_below (Moves.head_of_last hlast) hbelow hunder
      subst heq
      simp [InitState.available, hother] at havail

theorem Agrees.move {path : List String}
    (havail : state.available path = true) (hplace : program.IsPlace ty path) :
    Agrees program ty (State.InitState.moveOut state path) (contents.apply (.move path))
      (path :: moves) := by
  cases path with
  | nil =>
    intro place
    simp [Contents.apply]
  | cons field path =>
    cases state with
    | moved | uninitialized => cases havail
    | initialized =>
      refine ⟨fun other hother => ?_, fun place hin => ?_⟩
      · obtain rfl := mem_singleton.mp hother
        exact ⟨_, Moves.last_cons_self .., hplace⟩
      · have hwhole := h place hin
        simp [Contents.apply, hwhole, Moves.last_cons_self]
    | partially fields =>
      have hfresh : field ∉ fields := by simpa [InitState.available] using havail
      exact Missing.move h hfresh hplace

theorem Agrees.assign {path : List String}
    (hback : (Operation.assign path).givesBack state moves = true) :
    Agrees program ty (State.InitState.assign state path) (contents.apply (.assign path))
      moves := by
  cases path with
  | nil =>
    intro place _
    simp [Contents.apply]
  | cons field path =>
    cases state with
    | moved | uninitialized => cases hback
    | initialized =>
      intro place hplace
      simp [Contents.apply, h place hplace]
    | partially fields =>
      have hmoved : field ∈ fields → ∃ moved, moves.last field = some moved ∧
          (field :: path) <+: moved := by
        intro hmem
        simpa [Operation.givesBack, hmem, Option.any_eq_true] using hback
      have hmissing := fun place (hplace : program.IsPlace ty place) =>
        Missing.assigned h hmoved hplace
      simp only [State.InitState.assign]
      split_ifs with hempty
      · intro place hplace
        rw [← Bool.not_eq_false, hmissing place hplace, List.isEmpty_iff.mp hempty]
        rintro ⟨other, hother, -⟩
        cases hother
      · refine ⟨fun other hother => ?_, hmissing⟩
        exact Missing.recorded h other (mem_filter.mp hother).1

theorem Agrees.step
    (husable : operation.usable state = true) (hplace : program.IsPlace ty operation.path)
    (hback : operation.givesBack state moves = true) :
    Agrees program ty (operation.record state) (contents.apply operation)
      (operation.note moves) := by
  cases operation with
  | read path | borrow path => exact h
  | move path => exact h.move husable hplace
  | assign path => exact h.assign hback

/-- An assignment that gives back what was moved finds the value around its field. -/
theorem Agrees.allows_assign {path : List String} (hplace : program.IsPlace ty path)
    (hback : (Operation.assign path).givesBack state moves = true) :
    contents.Allows program ty (.assign path) := by
  cases path with
  | nil => trivial
  | cons field path =>
    have henclosing : program.IsPlace ty (field :: path).dropLast :=
      hplace.enclosing (List.dropLast_prefix _)
    cases state with
    | moved | uninitialized => cases hback
    | initialized => exact h _ henclosing
    | partially fields =>
      rw [Contents.Allows, ← Bool.not_eq_false]
      intro hgone
      obtain ⟨other, hother, moved, hmoved, hbelow⟩ :=
        (Missing.exactly h _ henclosing).mp hgone
      have heq := field_eq_of_below (Moves.head_of_last hmoved)
        (hbelow.trans (List.dropLast_prefix _)) prefix_rfl
      subst heq
      have hunder : (other :: path) <+: moved := by
        simpa [Operation.givesBack, hother, hmoved] using hback
      have hlen := (hunder.trans hbelow).length_le
      simp only [length_cons, length_dropLast] at hlen
      omega

/-- Where an assignment does not give back what was moved, the value around its field is missing
or the checker forgets that a part of the field is. -/
theorem Agrees.givesBack (hnested : program.Nested ty)
    (hallows : contents.Allows program ty operation)
    (htracks : (operation.record state).Tracks program ty (contents.apply operation))
    (hplace : program.IsPlace ty operation.path) : operation.givesBack state moves = true := by
  cases operation with
  | read path | borrow path | move path => rfl
  | assign path =>
  cases path with
  | nil => rfl
  | cons field path =>
  cases state with
  | initialized => rfl
  | moved | uninitialized =>
    rw [Contents.Allows, h] at hallows
    cases hallows
  | partially fields =>
    by_cases hmem : field ∈ fields
    case neg => simp [Operation.givesBack, hmem]
    obtain ⟨moved, hmoved, hmovedPlace⟩ := Missing.recorded h field hmem
    suffices hunder : (field :: path) <+: moved by
      simpa [Operation.givesBack, hmem, hmoved] using hunder
    obtain ⟨leaf, hleafUnder, hleaf⟩ := hnested.leaf moved hmovedPlace
    have hgone : contents leaf = false :=
      (Missing.exactly h leaf hleaf.1).mpr ⟨field, hmem, moved, hmoved, hleafUnder⟩
    -- the checker takes the whole first field for available now
    have havail : ((Operation.assign (field :: path)).record
        (.partially fields)).available [field] = true := by
      simp only [Operation.record, State.InitState.assign]
      split_ifs <;> simp [InitState.available]
    have hfield : program.IsPlace ty [field] :=
      hplace.enclosing (cons_prefix_cons.mpr ⟨rfl, nil_prefix⟩)
    have hfieldUnder : [field] <+: leaf := by
      have hhead := Moves.head_of_last hmoved
      cases moved with
      | nil => cases hhead
      | cons first rest =>
        cases hhead
        exact (cons_prefix_cons.mpr ⟨rfl, nil_prefix⟩).trans hleafUnder
    have hfilled := htracks [field] hfield havail leaf hleaf hfieldUnder
    have hassigned : (field :: path) <+: leaf := by
      simpa [Contents.apply, hgone] using hfilled
    rcases prefix_or_prefix_of_prefix hassigned hleafUnder with hunder | hover
    · exact hunder
    · -- the moved place encloses the assigned one
      by_cases heq : moved = field :: path
      · exact heq ▸ prefix_rfl
      · have henclosing : moved <+: (field :: path).dropLast := by
          obtain ⟨rest, hrest⟩ := hover
          have hne : rest ≠ [] := by
            rintro rfl
            exact heq (by rw [← hrest, append_nil])
          rw [← hrest, dropLast_append_of_ne_nil hne]
          exact prefix_append ..
        have hmissing : contents (field :: path).dropLast = false :=
          (Missing.exactly h _ (hplace.enclosing (List.dropLast_prefix _))).mpr
            ⟨field, hmem, moved, hmoved, henclosing⟩
        rw [Contents.Allows, hmissing] at hallows
        cases hallows

theorem Agrees.soundRun_iff (hnested : program.Nested ty) {operations : List Operation}
    (husable : usableAll operations state = true)
    (hplaces : ∀ operation ∈ operations, program.IsPlace ty operation.path) :
    SoundRun program ty operations state contents ↔ givesBackAll operations state moves = true := by
  induction operations generalizing state contents moves with
  | nil => exact iff_of_true h.tracks rfl
  | cons operation operations ih =>
    rw [usableAll, Bool.and_eq_true] at husable
    rw [givesBackAll, Bool.and_eq_true]
    have hplace := hplaces operation mem_cons_self
    have hrest := fun other hother => hplaces other (mem_cons_of_mem operation hother)
    constructor
    · rintro ⟨-, hallows, hsound⟩
      have htracks : (operation.record state).Tracks program ty (contents.apply operation) := by
        cases operations with
        | nil => exact hsound
        | cons next operations => exact hsound.1
      have hback := h.givesBack hnested hallows htracks hplace
      exact ⟨hback, (ih (h.step husable.1 hplace hback) husable.2 hrest).mp hsound⟩
    · rintro ⟨hback, hgives⟩
      refine ⟨h.tracks, ?_, (ih (h.step husable.1 hplace hback) husable.2 hrest).mpr hgives⟩
      cases operation with
      | read path | move path | borrow path => exact h.tracks path hplace husable.1
      | assign path => exact h.allows_assign hplace hback

end Agreement

/-! ## Straight-line bodies -/

/-- What an expression does to the variable; `none` where it uses another one. -/
def Expr.operations (name : String) (mode : UseMode) : Expr → Option (List Operation)
  | .value _ => some []
  | .use place => if place.root = name then some [.ofMode mode place.fields] else none
  | .move place => if place.root = name then some [.move place.fields] else none
  | .borrow _ place => if place.root = name then some [.borrow place.fields] else none

/-- What a statement does to the variable: it moves, reads or borrows a place of it, or assigns
one.  `none` where the statement branches, uses or assigns fields of another variable, or
declares the name again. -/
def Statement.operations (name : String) : Statement → Option (List Operation)
  | .binding _ other _ none => if other = name then none else some []
  | .binding _ other _ (some value) =>
    if other = name then none else value.operations name .consume
  | .assignment other value =>
    (value.operations name .consume).map
      (· ++ if other = name then [.assign []] else [])
  | .placeAssignment target value =>
    if target.root = name then
      (value.operations name .consume).map (· ++ [.assign target.fields])
    else none
  | .expression value => value.operations name .read
  | _ => none

/-- The operations of a body in the order they happen. -/
def operationsOf (name : String) : List Statement → Option (List Operation)
  | [] => some []
  | statement :: statements => do
      let first ← statement.operations name
      let rest ← operationsOf name statements
      return first ++ rest

def recordAll (operations : List Operation) (state : InitState) : InitState :=
  operations.foldl (fun state operation => operation.record state) state

theorem recordAll_append (first second : List Operation) (state : InitState) :
    recordAll (first ++ second) state = recordAll second (recordAll first state) :=
  foldl_append ..

theorem usableAll_append (first second : List Operation) (state : InitState) :
    usableAll (first ++ second) state =
      (usableAll first state && usableAll second (recordAll first state)) := by
  induction first generalizing state with
  | nil => rfl
  | cons operation first ih =>
    rw [cons_append, usableAll, usableAll, ih, Bool.and_assoc]
    rfl

namespace State

/-- The variable in the checker's state. -/
structure Holds (state : State) (name : String) (id : SlotId) (ty : Ty) (init : InitState) :
    Prop where
  wf : state.Wf
  lookup : state.lookup name = some id
  slot : ∃ slot, state.slots id = some slot ∧ slot.ty = ty ∧ slot.state = init

section Variable

variable {program : Program} {state after : State} {name : String} {id : SlotId} {ty : Ty}
  {init : InitState} {otherId : SlotId} {mutable : Bool} {mode : UseMode} {used : Ty} {value : Expr}
  {annotated : Option Ty} {index : Nat} {lastUses : String → Option Nat} {returnHasReference : Bool}

theorem lookup_mem_values (h : state.lookup other = some otherId) :
    (other, otherId) ∈ state.scopes.flatten := by
  obtain ⟨⟨depth, found⟩, hfound, rfl⟩ := map_eq_some_iff.mp h
  exact Frames.lookup_mem hfound

section

variable (h : state.Holds name id ty init)

include h

theorem Holds.sameCore (hcore : SameCore state after) : after.Holds name id ty init where
  wf := h.wf.sameCore hcore
  lookup := by
    rw [State.lookup, hcore.scopes]
    exact h.lookup
  slot := by
    obtain ⟨slot, hslot, hty, hstate⟩ := h.slot
    obtain ⟨slot', hslot', hsame⟩ := hcore.symm.slot hslot
    refine ⟨slot', hslot', ?_, ?_⟩
    · rw [← hty]
      exact (congrArg Slot.ty hsame).symm
    · rw [← hstate]
      exact (congrArg Slot.state hsame).symm

theorem Holds.setState {slot : Slot} (hslot : state.slots id = some slot) (new : InitState) :
    (state.setSlot id { slot with state := new }).Holds name id ty new where
  wf := h.wf.setSlot id _
  lookup := h.lookup
  slot := by
    obtain ⟨slot', hslot', hty, -⟩ := h.slot
    obtain rfl := Option.some.inj (hslot.symm.trans hslot')
    exact ⟨_, slots_setSlot_self .., hty, rfl⟩

theorem Holds.setOther {other : SlotId} (hne : other ≠ id)
    (slot : Slot) : (state.setSlot other slot).Holds name id ty init where
  wf := h.wf.setSlot other slot
  lookup := h.lookup
  slot := by
    rw [slots_setSlot_of_ne state slot hne.symm]
    exact h.slot

theorem Holds.id_ne (hne : other ≠ name)
    (hlook : state.lookup other = some otherId) : otherId ≠ id := by
  rintro rfl
  have hpair := inj_on_of_nodup_map h.wf.distinct (lookup_mem_values hlook)
    (lookup_mem_values h.lookup) rfl
  exact hne (congrArg Prod.fst hpair)

theorem Holds.declare (hne : other ≠ name) {otherTy : Ty}
    {initialized : Bool} {origin : Option Place}
    (hdeclare : state.declare other otherTy mutable initialized origin = .ok (otherId, after)) :
    after.Holds name id ty init := by
  have hid : id ≠ state.nextSlot :=
    Nat.ne_of_lt (h.wf.allocated id (List.mem_map.mpr ⟨_, lookup_mem_values h.lookup, rfl⟩))
  have hwf := h.wf.declare hdeclare
  obtain ⟨scope, scopes, slot, hscopes, -, -, -, -, rfl⟩ := declare_eq_ok hdeclare
  refine ⟨hwf, ?_, ?_⟩
  · have hlook := h.lookup
    rw [State.lookup, hscopes] at hlook
    have hother : (name == other) = false := beq_false_of_ne hne.symm
    rw [State.lookup, hscopes, Frames.declare, Frames.lookup, lookup_cons, hother]
    exact hlook
  · rw [slots_setSlot_of_ne state slot hid]
    exact h.slot

theorem Holds.slot_ok {slot : Slot} (hok : state.slot id = .ok slot) :
    state.slots id = some slot ∧ slot.ty = ty ∧ slot.state = init := by
  obtain ⟨held, hheld, hslot⟩ := h.slot
  obtain rfl := Option.some.inj (hheld.symm.trans (slot_eq_ok hok))
  exact ⟨hheld, hslot⟩

theorem Holds.place {fields : List String} (hplace : program.IsPlace ty fields) {place : Place}
    (hok : state.place ⟨name, fields⟩ = .ok place) : place = ⟨id, fields⟩ := by
  unfold State.place at hok
  rw [h.lookup] at hok
  cases fields with
  | nil =>
    cases hok
    rfl
  | cons field fields =>
    obtain ⟨slot, hslot, hok⟩ := bind_eq_ok hok
    obtain ⟨-, hty, -⟩ := h.slot_ok hslot
    have href : slot.ty.isReference = false := by
      rw [hty]
      cases ty with
      | reference inner mutable => cases hplace
      | copy | owned name | list element => rfl
    simp only [href] at hok
    cases hok
    rfl

theorem Holds.usePlace (hnested : program.Nested ty)
    {path : List String} (hplace : program.IsPlace ty path)
    (hok : state.usePlace program ⟨id, path⟩ mode = .ok (used, after)) :
    init.available path = true ∧
      after.Holds name id ty ((Operation.ofMode mode path).record init) := by
  obtain ⟨slot, hslot', hok⟩ := bind_eq_ok hok
  obtain ⟨hslot, hty, hstate⟩ := h.slot_ok hslot'
  obtain ⟨_, husable, hok⟩ := bind_eq_ok hok
  obtain ⟨_, -, hok⟩ := bind_eq_ok hok
  obtain ⟨inner, hinner, hok⟩ := bind_eq_ok hok
  obtain ⟨declared, hdecl⟩ := isSome_iff_exists.mp hplace
  have hcopy : program.tyIsCopy inner = false := by
    rw [State.placeTy, hslot'] at hinner
    have hpath := placeTy_of_fieldTy hdecl
    rw [← hty] at hpath
    obtain rfl := Except.ok.inj (hpath.symm.trans hinner)
    exact hnested.owned path _ hdecl
  refine ⟨?_, ?_⟩
  · rw [← hstate]
    exact (ensureUsable_ok_iff slot ⟨id, path⟩).mp husable
  · simp only [hcopy, and_true] at hok
    split_ifs at hok with hmode
    · obtain ⟨middle, hmove, hres⟩ := bind_eq_ok hok
      obtain ⟨_, -, hmove⟩ := bind_eq_ok hmove
      obtain ⟨_, -, hmove⟩ := bind_eq_ok hmove
      cases hmove
      cases hres
      rw [Operation.ofMode, if_pos hmode, ← hstate]
      exact h.setState hslot _
    · cases hok
      rw [Operation.ofMode, if_neg hmode]
      exact h

theorem Holds.checkBorrow {path : List String} {result : Unit}
    (hok : state.checkBorrow ⟨id, path⟩ mutable = .ok result) : init.available path = true := by
  obtain ⟨slot, hslot, hok⟩ := bind_eq_ok hok
  obtain ⟨-, -, hstate⟩ := h.slot_ok hslot
  obtain ⟨_, -, hok⟩ := bind_eq_ok hok
  obtain ⟨_, hinit, -⟩ := bind_eq_ok hok
  rw [← hstate]
  exact (ensureInitialized_ok_iff slot ⟨id, path⟩).mp hinit

end

/-- The checker accepts a sequence of operations and records what it does. -/
structure Follows (after : State) (name : String) (id : SlotId) (ty : Ty) (init : InitState)
    (operations : List Operation) : Prop where
  usable : usableAll operations init = true
  holds : after.Holds name id ty (recordAll operations init)

theorem Follows.sameCore {operations : List Operation}
    (h : state.Follows name id ty init operations) (hcore : SameCore state after) :
    after.Follows name id ty init operations :=
  ⟨h.usable, h.holds.sameCore hcore⟩

section

variable (h : state.Holds name id ty init) (hnested : program.Nested ty)

include h hnested

theorem Holds.use
    {path : List String} (hplace : program.IsPlace ty path) (hok : (do
      let place ← state.place ⟨name, path⟩
      state.usePlace program place mode) = .ok (used, after)) :
    after.Follows name id ty init [.ofMode mode path] := by
  obtain ⟨place, hfound, hok⟩ := bind_eq_ok hok
  obtain rfl := h.place hplace hfound
  obtain ⟨havail, hafter⟩ := h.usePlace hnested hplace hok
  refine ⟨?_, hafter⟩
  cases mode <;> simpa [usableAll, Operation.ofMode, Operation.usable] using havail

variable {operations : List Operation}
  (hplaces : ∀ operation ∈ operations, program.IsPlace ty operation.path)

include hplaces

theorem Holds.checkExpr (hops : value.operations name mode = some operations)
    (hok : state.checkExpr program mode value = .ok (used, after)) :
    after.Follows name id ty init operations := by
  cases value with
  | value _ =>
    cases hops
    cases hok
    exact ⟨rfl, h⟩
  | use target =>
    obtain ⟨rfl, hsome⟩ := ite_none_right_eq_some.mp hops
    cases hsome
    refine h.use hnested ?_ hok
    have hplace := hplaces _ mem_cons_self
    cases mode <;> exact hplace
  | move target =>
    obtain ⟨rfl, hsome⟩ := ite_none_right_eq_some.mp hops
    cases hsome
    exact h.use hnested (hplaces _ mem_cons_self) hok
  | borrow mutable target =>
    obtain ⟨rfl, hsome⟩ := ite_none_right_eq_some.mp hops
    cases hsome
    obtain ⟨place, hfound, hok⟩ := bind_eq_ok hok
    obtain rfl := h.place (hplaces _ mem_cons_self) hfound
    obtain ⟨_, hborrow, hok⟩ := bind_eq_ok hok
    obtain ⟨inner, -, hok⟩ := bind_eq_ok hok
    cases hok
    refine ⟨?_, h.sameCore (sameCore_addLoan ..)⟩
    simpa [usableAll, Operation.usable, Operation.path] using h.checkBorrow hborrow

theorem Holds.bindValue (hne : other ≠ name)
    (hops : value.operations name .consume = some operations)
    (hok : state.bindValue program mutable other annotated value index lastUses = .ok after) :
    after.Follows name id ty init operations := by
  obtain ⟨⟨used, middle⟩, hexpr, hok⟩ := bind_eq_ok hok
  obtain ⟨⟨otherId, declared⟩, hdeclare, hok⟩ := bind_eq_ok hok
  have hmid := h.checkExpr hnested hplaces hops hexpr
  have hdecl : declared.Follows name id ty init operations :=
    ⟨hmid.usable, hmid.holds.declare hne hdeclare⟩
  split_ifs at hok
  · cases hok
    exact hdecl
  · obtain ⟨attached, hattach, hok⟩ := bind_eq_ok hok
    cases hok
    exact (hdecl.sameCore (sameCore_attachBorrowOrigins hattach)).sameCore
      (sameCore_releaseUnused ..)

omit hnested in
theorem Holds.bindBorrow {borrowMutable : Bool} (hne : other ≠ name) {target : PlaceExpr}
    (hops : (Expr.borrow borrowMutable target).operations name .consume = some operations)
    (hok : state.bindBorrow program mutable other annotated borrowMutable target index
      lastUses = .ok after) : after.Follows name id ty init operations := by
  obtain ⟨rfl, hsome⟩ := ite_none_right_eq_some.mp hops
  cases hsome
  obtain ⟨place, hfound, hok⟩ := bind_eq_ok hok
  obtain rfl := h.place (hplaces _ mem_cons_self) hfound
  obtain ⟨_, hborrow, hok⟩ := bind_eq_ok hok
  obtain ⟨inner, -, hok⟩ := bind_eq_ok hok
  obtain ⟨⟨otherId, declared⟩, hdeclare, hok⟩ := bind_eq_ok hok
  cases hok
  have hdecl := h.declare hne hdeclare
  refine ⟨?_, (hdecl.sameCore (sameCore_addLoan ..)).sameCore (sameCore_releaseUnused ..)⟩
  simpa [usableAll, Operation.usable, Operation.path] using h.checkBorrow hborrow

theorem Holds.checkBinding {value : Option Expr}
    (hops : (Statement.binding mutable other annotated value).operations name = some operations)
    (hok : state.checkBinding program mutable other annotated value index lastUses = .ok after) :
    after.Follows name id ty init operations := by
  cases value with
  | none =>
    obtain ⟨hne, hsome⟩ := ite_none_left_eq_some.mp hops
    cases hsome
    obtain ⟨⟨otherId, declared⟩, hdeclare, hok⟩ := bind_eq_ok hok
    cases hok
    exact ⟨rfl, h.declare hne hdeclare⟩
  | some value =>
    obtain ⟨hne, hsome⟩ := ite_none_left_eq_some.mp hops
    cases value with
    | borrow borrowMutable target => exact h.bindBorrow hplaces hne hsome hok
    | value used | use target | move target => exact h.bindValue hnested hplaces hne hsome hok

/-- An assignment to the variable, or to another one. -/
theorem Holds.checkAssignment {target : Place}
    (hops : value.operations name .consume = some operations)
    (hok : state.checkAssignment program target value = .ok after) :
    after.Follows name id ty init
      (operations ++ if target.root = id then [.assign target.fields] else []) := by
  obtain ⟨_, -, hok⟩ := bind_eq_ok hok
  obtain ⟨_, -, hok⟩ := bind_eq_ok hok
  obtain ⟨_, -, hok⟩ := bind_eq_ok hok
  obtain ⟨⟨used, middle⟩, hexpr, hok⟩ := bind_eq_ok hok
  obtain ⟨_, -, hok⟩ := bind_eq_ok hok
  obtain ⟨slot, hslot, hok⟩ := bind_eq_ok hok
  obtain ⟨husable, hmid⟩ := h.checkExpr hnested hplaces hops hexpr
  have hcore := sameCore_carryOrigins (slots_setSlot_self ..) hok
  by_cases hroot : target.root = id
  · rw [if_pos hroot]
    rw [hroot] at hslot hcore
    refine ⟨by rw [usableAll_append, husable]; rfl, ?_⟩
    rw [recordAll_append]
    obtain ⟨hslot', -, hstate⟩ := hmid.slot_ok hslot
    rw [hstate] at hcore
    exact (hmid.setState hslot' _).sameCore hcore
  · rw [if_neg hroot, append_nil]
    exact ⟨husable, (hmid.setOther hroot _).sameCore hcore⟩

theorem Holds.checkNameAssignment
    (hops : (Statement.assignment other value).operations name = some operations)
    (hok : state.checkNameAssignment program other value index lastUses = .ok after) :
    after.Follows name id ty init operations := by
  obtain ⟨first, hfirst, rfl⟩ := map_eq_some_iff.mp hops
  have hplaces' := fun operation hmem => hplaces operation (mem_append_left _ hmem)
  unfold State.checkNameAssignment at hok
  cases hlook : state.lookup other with
  | none =>
    rw [hlook] at hok
    have hne : other ≠ name := by
      rintro rfl
      rw [h.lookup] at hlook
      cases hlook
    rw [if_neg hne, append_nil]
    exact h.bindValue hnested hplaces' hne hfirst hok
  | some otherId =>
    rw [hlook] at hok
    obtain ⟨assigned, hassign, hok⟩ := bind_eq_ok hok
    cases hok
    have hfollows := (h.checkAssignment hnested hplaces' hfirst hassign).sameCore
      (sameCore_dropLoans _ otherId)
    by_cases hname : other = name
    · subst hname
      obtain rfl := Option.some.inj (hlook.symm.trans h.lookup)
      rwa [if_pos rfl] at hfollows ⊢
    · rw [if_neg (h.id_ne hname hlook)] at hfollows
      rwa [if_neg hname]

theorem Holds.checkStatement {statement : Statement}
    (hops : statement.operations name = some operations)
    (hok : checkStatement program returnHasReference index lastUses statement state = .ok after) :
    after.Follows name id ty init operations := by
  cases statement with
  | binding mutable other annotated value =>
    exact h.checkBinding hnested hplaces hops hok
  | assignment other value => exact h.checkNameAssignment hnested hplaces hops hok
  | placeAssignment target value =>
    obtain ⟨rfl, hsome⟩ := ite_none_right_eq_some.mp hops
    obtain ⟨first, hfirst, rfl⟩ := map_eq_some_iff.mp hsome
    obtain ⟨place, hfound, hassign⟩ := bind_eq_ok hok
    obtain rfl := h.place (hplaces _ (mem_append_right _ mem_cons_self)) hfound
    have hfollows := h.checkAssignment hnested
      (fun operation hmem => hplaces operation (mem_append_left _ hmem)) hfirst hassign
    rwa [if_pos rfl] at hfollows
  | expression value =>
    obtain ⟨⟨used, middle⟩, hexpr, hok⟩ := bind_eq_ok hok
    cases hok
    exact h.checkExpr hnested hplaces hops hexpr
  | returns value | ifElse condition thenBranch elseBranch | whileLoop condition body
  | forRange other first last body | forEach other iterable body | loop body | breaks | continues =>
    cases hops

end

theorem Holds.checkContents (hnested : program.Nested ty) {body : List Statement}
    {operations : List Operation} (hops : operationsOf name body = some operations)
    (hplaces : ∀ operation ∈ operations, program.IsPlace ty operation.path)
    (h : state.Holds name id ty init)
    (hok : checkContents program returnHasReference lastUses index body state = .ok after) :
    after.Follows name id ty init operations := by
  induction body generalizing operations index state init with
  | nil =>
    cases hops
    cases hok
    exact ⟨rfl, h⟩
  | cons statement body ih =>
    obtain ⟨first, hfirst, hops⟩ := bind_eq_some_iff.mp hops
    obtain ⟨rest, hrest, hsome⟩ := bind_eq_some_iff.mp hops
    cases hsome
    obtain ⟨middle, hstmt, hok⟩ := bind_eq_ok hok
    have hexpired := h.sameCore (sameCore_expireLoans state index lastUses)
    obtain ⟨husable, hmid⟩ := hexpired.checkStatement hnested
      (fun operation hmem => hplaces operation (mem_append_left _ hmem)) hfirst hstmt
    obtain ⟨husable', hafter⟩ := ih hrest
      (fun operation hmem => hplaces operation (mem_append_right _ hmem)) hmid hok
    refine ⟨?_, ?_⟩
    · rw [usableAll_append, husable, husable']
      rfl
    · rw [recordAll_append]
      exact hafter

end Variable

end State

/-- For every straight-line body that the checker accepts: its operations on the variable, and
every further use the checker would accept at any point of it, find their leaves initialized and
the values around assigned fields present exactly if field paths are only assigned in a variable
that holds a value, and where something was moved out of their first field, to give that back. -/
theorem soundRun_iff_givesBack {program : Program} {ty : Ty} (hnested : program.Nested ty)
    {name : String} {id : SlotId} {initialized : Bool} {start finish : State}
    (hstart : start.Holds name id ty (if initialized then .initialized else .uninitialized))
    {body : List Statement} {operations : List Operation}
    (hbody : operationsOf name body = some operations)
    (hplaces : ∀ operation ∈ operations, program.IsPlace ty operation.path)
    {returnHasReference : Bool} {lastUses : String → Option Nat} {index : Nat}
    (haccepted : State.checkContents program returnHasReference lastUses index body start =
      .ok finish) :
    SoundRun program ty operations (if initialized then .initialized else .uninitialized)
        (fun _ => initialized) ↔
      givesBackAll operations (if initialized then .initialized else .uninitialized) [] =
        true := by
  have hfollows := hstart.checkContents hnested hbody hplaces haccepted
  have hagrees : Agrees program ty (if initialized then .initialized else .uninitialized)
      (fun _ => initialized) [] := by
    cases initialized with
    | true => exact fun _ _ => rfl
    | false => exact fun _ => rfl
  exact hagrees.soundRun_iff hnested hfollows.usable hplaces

/-! A variable with a struct that has two fields inside a field. -/

def pairProgram : Program where
  structs := [⟨"Outer", [("inner", .owned "Inner")]⟩,
    ⟨"Inner", [("first", .owned "Text"), ("second", .owned "Text")]⟩]
  copyTypes := []
  functions := []

def outerStart : State where
  slots := fun id => if id = 0 then
    some ⟨"x", .owned "Outer", true, .initialized, 0, false, none, []⟩ else none
  scopes := [[("x", 0)]]
  loans := []
  nextSlot := 1

theorem isPlace_text (path : List String) :
    pairProgram.IsPlace (.owned "Text") path ↔ path = [] := by
  cases path with
  | nil => exact iff_of_true rfl rfl
  | cons field path =>
    simp [Program.IsPlace, Program.fieldTy, pairProgram]

theorem isPlace_inner (path : List String) :
    pairProgram.IsPlace (.owned "Inner") path ↔ path ∈ [[], ["first"], ["second"]] := by
  cases path with
  | nil => exact iff_of_true rfl (by decide)
  | cons field path =>
    have htext := isPlace_text path
    unfold Program.IsPlace at htext ⊢
    by_cases hfirst : field = "first"
    · subst hfirst
      simpa [Program.fieldTy, pairProgram] using htext
    by_cases hsecond : field = "second"
    · subst hsecond
      simpa [Program.fieldTy, pairProgram, lookup_cons] using htext
    refine iff_of_false ?_ (by simp [hfirst, hsecond])
    have hlook : List.lookup field
        [("first", Ty.owned "Text"), ("second", Ty.owned "Text")] = none := by
      simp [hfirst, hsecond]
    simp [Program.fieldTy, pairProgram, hlook]

theorem isPlace_outer (path : List String) :
    pairProgram.IsPlace (.owned "Outer") path ↔
      path ∈ [[], ["inner"], ["inner", "first"], ["inner", "second"]] := by
  cases path with
  | nil => exact iff_of_true rfl (by decide)
  | cons field path =>
    have hinner := isPlace_inner path
    unfold Program.IsPlace at hinner ⊢
    by_cases hfield : field = "inner"
    · subst hfield
      simpa [Program.fieldTy, pairProgram] using hinner
    refine iff_of_false ?_ (by simp [hfield])
    have hlook : List.lookup field [("inner", Ty.owned "Inner")] = none := by
      simp [hfield]
    simp [Program.fieldTy, pairProgram, hlook]

theorem isLeaf_outer (h : field = "first" ∨ field = "second") :
    pairProgram.IsLeaf (.owned "Outer") ["inner", field] := by
  refine ⟨(isPlace_outer _).mpr ?_, fun other hother => ?_⟩
  · rcases h with rfl | rfl <;> simp
  · simp [isPlace_outer] at hother

theorem nested_pairProgram : pairProgram.Nested (.owned "Outer") where
  owned path inner h := by
    have hmem := (isPlace_outer path).mp (isSome_of_eq_some h)
    simp only [mem_cons, not_mem_nil, or_false] at hmem
    rcases hmem with rfl | rfl | rfl | rfl <;> cases h <;> rfl
  leaf path h := by
    have hmem := (isPlace_outer path).mp h
    simp only [mem_cons, not_mem_nil, or_false] at hmem
    rcases hmem with rfl | rfl | rfl | rfl
    · exact ⟨["inner", "first"], nil_prefix, isLeaf_outer (.inl rfl)⟩
    · exact ⟨["inner", "first"], ⟨["first"], rfl⟩, isLeaf_outer (.inl rfl)⟩
    · exact ⟨["inner", "first"], prefix_rfl, isLeaf_outer (.inl rfl)⟩
    · exact ⟨["inner", "second"], prefix_rfl, isLeaf_outer (.inr rfl)⟩

theorem holds_outerStart : outerStart.Holds "x" 0 (.owned "Outer")
    (if true then .initialized else .uninitialized) := by
  refine ⟨⟨by decide, by decide, by decide⟩, rfl, _, rfl, rfl, rfl⟩

def givingBack : List Statement :=
  [.binding false "y" none (some (.use ⟨"x", ["inner", "first"]⟩)),
    .placeAssignment ⟨"x", ["inner", "first"]⟩ (.value (.owned "Text")),
    .expression (.use ⟨"x", []⟩)]

theorem soundRun_giving_back : SoundRun pairProgram (.owned "Outer")
      [.move ["inner", "first"], .assign ["inner", "first"], .read []] .initialized
      (fun _ => true) := by
  have hplaces : ∀ operation ∈ [Operation.move ["inner", "first"],
      .assign ["inner", "first"], .read []],
      pairProgram.IsPlace (.owned "Outer") operation.path := by
    simp [isPlace_outer, Operation.path]
  have hacc : State.checkContents pairProgram false (fun _ => none) 0 givingBack
      outerStart = .ok _ := rfl
  exact (soundRun_iff_givesBack nested_pairProgram holds_outerStart rfl hplaces hacc).mpr rfl

/-- What is left of the variable after `let y = x.inner.first; x.inner.second = "text"`. -/
def leftContents : Contents :=
  Contents.apply (.assign ["inner", "second"]) (Contents.apply (.move ["inner", "first"])
    fun _ => true)

/-- `let y = x.inner.first; x.inner.second = "text"; x.inner` is accepted, and the read at its end
is not allowed: the leaf `x.inner.first` has been moved out. -/
theorem moved_leaf_forgotten :
    (∃ finish, State.checkContents pairProgram false (fun _ => none) 0
      [.binding false "y" none (some (.use ⟨"x", ["inner", "first"]⟩)),
        .placeAssignment ⟨"x", ["inner", "second"]⟩ (.value (.owned "Text")),
        .expression (.use ⟨"x", ["inner"]⟩)] outerStart = .ok finish) ∧
      ¬ leftContents.Allows pairProgram (.owned "Outer") (.read ["inner"]) ∧
      ¬ SoundRun pairProgram (.owned "Outer")
        [.move ["inner", "first"], .assign ["inner", "second"], .read ["inner"]] .initialized
        (fun _ => true) := by
  have hread : ¬ leftContents.Allows pairProgram (.owned "Outer") (.read ["inner"]) := by
    intro hread
    cases hread ["inner", "first"] (isLeaf_outer (.inl rfl)) ⟨["first"], rfl⟩
  refine ⟨⟨_, rfl⟩, hread, ?_⟩
  rintro ⟨-, -, -, -, -, hallowed, -⟩
  exact hread hallowed

end Disp.Ownership

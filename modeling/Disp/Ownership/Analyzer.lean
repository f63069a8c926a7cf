import Disp.Library.Frames
import Disp.Ownership.Syntax

/-!
# The ownership checker

The state of `Analyzer` (slots, scopes, loans) and its `check_expr`,
`check_assignment`, `check_statement` and `check_function` on the statements of
`Disp.Ownership.Syntax`.  The recorded drops and the source spans of the
diagnostics are left out.
-/

namespace Disp.Ownership

open Disp.Library

abbrev SlotId := Nat

structure Place where
  root : SlotId
  fields : List String
  deriving DecidableEq, Repr

abbrev Origin := Place × Bool

inductive InitState
  | uninitialized
  | initialized
  | moved
  | partially (fields : List String)
  deriving DecidableEq, Repr

structure Slot where
  name : String
  ty : Ty
  mutable : Bool
  state : InitState
  scopeDepth : Nat
  parameter : Bool
  referenceOrigin : Option Place
  borrowOrigins : List Origin
  deriving DecidableEq, Repr

structure Loan where
  place : Place
  mutable : Bool
  borrower : Option SlotId
  deriving DecidableEq, Repr

/-- The analyzer; the innermost scope comes first, and in it the last declared name. -/
structure State where
  slots : SlotId → Option Slot
  scopes : Frames String SlotId
  loans : List Loan
  nextSlot : SlotId

inductive UseMode
  | read
  | consume
  deriving DecidableEq, Repr

/-! ## Diagnostics -/

inductive Error
  | uninitialized (name : String)
  | moved (name : String)
  | partiallyMoved (name : String)
  | immutable (name : String)
  | mutableBorrow (name : String)
  | secondMutable
  | overlap
  | mutateBorrowed
  | accessBorrowed
  | outOfReference
  | escapes (name : String)
  | duplicate (name : String)
  | unknown (name : String)
  | notStruct
  | notIterable
  | noOrigin
  | returnsLocal (name : String)
  | manyInputs
  | noSlot
  deriving DecidableEq, Repr

/-- The text of the diagnostic; `noSlot` stands for indexing a slot that is gone. -/
def Error.message : Error → String
  | .uninitialized name => s!"use of uninitialized value `{name}`"
  | .moved name => s!"use of moved value `{name}`"
  | .partiallyMoved name => s!"use of partially moved value `{name}`"
  | .immutable name => s!"cannot assign to immutable `{name}`"
  | .mutableBorrow name => s!"cannot mutably borrow immutable `{name}`"
  | .secondMutable => "cannot create a second mutable borrow"
  | .overlap => "shared and mutable borrows overlap"
  | .mutateBorrowed => "cannot mutate or move a borrowed value"
  | .accessBorrowed => "cannot access a value through an active mutable borrow"
  | .outOfReference => "cannot move a non-Copy value out of a reference"
  | .escapes name => s!"reference to `{name}` escapes its owner's scope"
  | .duplicate name => s!"duplicate local `{name}`"
  | .unknown name => s!"unknown ownership slot `{name}`"
  | .notStruct => "field access requires a struct"
  | .notIterable => "iteration requires an array, slice, or List"
  | .noOrigin => "returned reference has no provable live origin"
  | .returnsLocal name => s!"cannot return a reference to local `{name}`"
  | .manyInputs => "a borrowed return requires exactly one borrowed input lifetime"
  | .noSlot => "no entry found for key"

def ensure (condition : Bool) (error : Error) : Except Error Unit :=
  if condition then .ok () else .error error

/-! ## Places -/

def fieldsOverlap : List String → List String → Bool
  | a :: as, b :: bs => a == b && fieldsOverlap as bs
  | _, _ => true

/-- `places_overlap`, without the index regions. -/
def placesOverlap (left right : Place) : Bool :=
  left.root == right.root && fieldsOverlap left.fields right.fields

/-- `place_ty`, from the type of the root. -/
def placeTy (program : Program) : Ty → List String → Except Error Ty
  | ty, [] => .ok ty
  | .reference inner _, field :: fields =>
    if field = "<deref>" then placeTy program inner fields else .ok (.owned "field")
  | .owned name, field :: fields =>
    if field = "<deref>" then placeTy program (.owned name) fields
    else
      match program.structs.find? fun declaration => declaration.name == name with
      | none => .error .notStruct
      | some declaration =>
        placeTy program ((declaration.fields.lookup field).getD (.owned "field")) fields
  | ty, field :: fields =>
    if field = "<deref>" then placeTy program ty fields else .ok (.owned "field")

/-! ## Origins -/

def fieldsLess : List String → List String → Bool
  | [], [] => false
  | [], _ :: _ => true
  | _ :: _, [] => false
  | a :: as, b :: bs => decide (a < b) || (a == b && fieldsLess as bs)

/-- The order `origins` are sorted in: by root, by fields, shared ones first. -/
def originLess (left right : Origin) : Bool :=
  decide (left.1.root < right.1.root) ||
    (left.1.root == right.1.root &&
      (fieldsLess left.1.fields right.1.fields ||
        (left.1.fields == right.1.fields && (!left.2 && right.2))))

/-- Insertion into a sorted list without duplicates. -/
def insertOrigin (origin : Origin) : List Origin → List Origin
  | [] => [origin]
  | other :: origins =>
    if origin = other then other :: origins
    else if originLess origin other then origin :: other :: origins
    else other :: insertOrigin origin origins

def sortOrigins (origins : List Origin) : List Origin :=
  origins.foldr insertOrigin []

namespace State

def lookup (state : State) (name : String) : Option SlotId :=
  (Frames.lookup name state.scopes).map Prod.snd

def slot (state : State) (id : SlotId) : Except Error Slot :=
  match state.slots id with
  | some slot => .ok slot
  | none => .error .noSlot

def setSlot (state : State) (id : SlotId) (slot : Slot) : State :=
  { state with slots := Function.update state.slots id (some slot) }

/-- `place`.  A field of a variable that holds a reference belongs to the place the
reference was made from, where that is known. -/
def place (state : State) (place : PlaceExpr) : Except Error Place :=
  match state.lookup place.root with
  | none => .error (.unknown place.root)
  | some id =>
    match place.fields with
    | [] => .ok ⟨id, []⟩
    | fields => do
        let slot ← state.slot id
        let base :=
          if slot.ty.isReference then slot.referenceOrigin.getD ⟨id, ["<deref>"]⟩
          else ⟨id, []⟩
        return ⟨base.root, base.fields ++ fields⟩

def placeTy (program : Program) (state : State) (place : Place) : Except Error Ty := do
  let slot ← state.slot place.root
  Ownership.placeTy program slot.ty place.fields

def pushScope (state : State) : State :=
  { state with scopes := [] :: state.scopes }

/-- `pop_scope`: the scope's slots and what they borrowed are forgotten. -/
def popScope (state : State) : State :=
  match state.scopes with
  | [] => state
  | scope :: scopes =>
    let ids := scope.map Prod.snd
    { state with
      scopes
      loans := state.loans.filter fun loan => !loan.borrower.any ids.contains
      slots := fun id => if ids.contains id then none else state.slots id }

def declare (state : State) (name : String) (ty : Ty) (mutable initialized : Bool)
    (referenceOrigin : Option Place) : Except Error (SlotId × State) :=
  match state.scopes with
  | [] => .error .noSlot
  | scope :: scopes =>
    if (List.lookup name scope).isSome then
      .error (.duplicate name)
    else
      let slot : Slot := {
        name, ty, mutable, referenceOrigin
        state := if initialized then .initialized else .uninitialized
        scopeDepth := scopes.length
        parameter := false
        borrowOrigins := [] }
      .ok (state.nextSlot,
        { state.setSlot state.nextSlot slot with
          scopes := ((name, state.nextSlot) :: scope) :: scopes
          nextSlot := state.nextSlot + 1 })

/-! ## Loans -/

def ensureNoConflictingLoan (state : State) (place : Place) (mutation : Bool) :
    Except Error Unit :=
  ensure (!state.loans.any fun loan =>
      placesOverlap loan.place place && (mutation || loan.mutable))
    (if mutation then .mutateBorrowed else .accessBorrowed)

def ensureInitialized (slot : Slot) (place : Place) : Except Error Unit :=
  match slot.state, place.fields with
  | .initialized, _ => .ok ()
  | .partially fields, field :: _ =>
    if fields.contains field then .error (.partiallyMoved slot.name) else .ok ()
  | .partially _, [] => .error (.partiallyMoved slot.name)
  | .moved, _ => .error (.moved slot.name)
  | .uninitialized, _ => .error (.uninitialized slot.name)

def checkBorrow (state : State) (place : Place) (mutable : Bool) : Except Error Unit := do
  let slot ← state.slot place.root
  ensure (!mutable || slot.mutable) (.mutableBorrow slot.name)
  ensureInitialized slot place
  match state.loans.find? fun loan =>
      placesOverlap loan.place place && (mutable || loan.mutable) with
  | some loan => .error (if mutable && loan.mutable then .secondMutable else .overlap)
  | none => .ok ()

def addLoan (state : State) (place : Place) (mutable : Bool) (borrower : Option SlotId) :
    State :=
  { state with loans := state.loans ++ [⟨place, mutable, borrower⟩] }

def dropLoans (state : State) (id : SlotId) : State :=
  { state with loans := state.loans.filter fun loan => loan.borrower ≠ some id }

/-- `expire_loans` before the statement at `index` of a block.  Loans of an outer block's
variables stay. -/
def expireLoans (state : State) (index : Nat) (lastUses : String → Option Nat) : State :=
  { state with
    loans := state.loans.filter fun loan =>
      match loan.borrower with
      | none => false
      | some id =>
        (state.slots id).any fun slot =>
          decide (slot.scopeDepth < state.scopes.length - 1) ||
            decide (index ≤ (lastUses slot.name).getD 0) }

/-- The one loop of `attach_borrow_origins`. -/
def borrowAll (id : SlotId) : List Origin → State → Except Error State
  | [], state => .ok state
  | (place, mutable) :: origins, state => do
      state.checkBorrow place mutable
      borrowAll id origins (state.addLoan place mutable (some id))

def movedBorrowers (state : State) (origins : List Origin) : List SlotId :=
  (origins.filter Prod.snd).filterMap fun origin =>
    (state.loans.find? fun loan => loan.place == origin.1).bind Loan.borrower

def attachBorrowOrigins (state : State) (id : SlotId) (origins : List Origin) :
    Except Error State := do
  let origins := sortOrigins origins
  if origins.isEmpty then
    return state
  let moved := state.movedBorrowers origins
  let state := { state with
    loans := state.loans.filter fun loan =>
      decide (loan.borrower ≠ some id) && !loan.borrower.any moved.contains &&
        !(loan.borrower.isNone && origins.contains (loan.place, loan.mutable)) }
  let state ← borrowAll id origins state
  let slot ← state.slot id
  return state.setSlot id
    { slot with referenceOrigin := origins.head?.map Prod.fst, borrowOrigins := origins }

/-! ## Expressions -/

/-- The first half of `use_place`: the value is there. -/
def ensureUsable (slot : Slot) (place : Place) : Except Error Unit :=
  match slot.state, place.fields with
  | .uninitialized, _ => .error (.uninitialized slot.name)
  | .moved, _ => .error (.moved slot.name)
  | .partially _, [] => .error (.partiallyMoved slot.name)
  | .partially fields, field :: _ => ensure (!fields.contains field) (.moved slot.name)
  | .initialized, _ => .ok ()

/-- The state a slot has after a part of it, or all of it, is moved out. -/
def InitState.moveOut (state : InitState) : List String → InitState
  | [] => .moved
  | field :: _ =>
    match state with
    | .partially fields => .partially (field :: fields)
    | _ => .partially [field]

/-- The second half of `use_place`: a value that is not `Copy` is moved out. -/
def moveOut (state : State) (place : Place) (slot : Slot) : Except Error State := do
  ensure (decide (place.fields.head? ≠ some "<deref>")) .outOfReference
  state.ensureNoConflictingLoan place true
  return state.setSlot place.root
    { slot with state := InitState.moveOut slot.state place.fields }

/-- `use_place`. -/
def usePlace (program : Program) (state : State) (place : Place) (mode : UseMode) :
    Except Error (Ty × State) := do
  let slot ← state.slot place.root
  ensureUsable slot place
  state.ensureNoConflictingLoan place false
  let ty ← state.placeTy program place
  if mode = .consume ∧ program.tyIsCopy ty = false then
    let state ← state.moveOut place slot
    return (ty, state)
  else
    return (ty, state)

def checkExpr (program : Program) (state : State) (mode : UseMode) :
    Expr → Except Error (Ty × State)
  | .value ty => .ok (ty, state)
  | .use target => do
      let place ← state.place target
      state.usePlace program place mode
  | .move target => do
      let place ← state.place target
      state.usePlace program place .consume
  | .borrow mutable target => do
      let place ← state.place target
      state.checkBorrow place mutable
      let ty ← state.placeTy program place
      return (.reference ty mutable, state.addLoan place mutable none)

/-- `borrow_origins`. -/
def borrowOrigins (state : State) : Expr → List Origin
  | .value _ => []
  | .use target | .move target =>
    match (state.lookup target.root).bind state.slots with
    | some slot => sortOrigins slot.borrowOrigins
    | none => []
  | .borrow mutable target =>
    match state.place target with
    | .ok place => [(place, mutable)]
    | .error _ => []

/-- The depth check of `check_assignment`. -/
def ensureOutlives (state : State) (target : SlotId) : List Origin → Except Error Unit
  | [] => .ok ()
  | (origin, _) :: origins => do
      let targetSlot ← state.slot target
      let originSlot ← state.slot origin.root
      ensure (decide (originSlot.scopeDepth ≤ targetSlot.scopeDepth)) (.escapes originSlot.name)
      ensureOutlives state target origins

/-- The state a slot has after a part of it, or all of it, is assigned. -/
def InitState.assign (state : InitState) : List String → InitState
  | [] => .initialized
  | field :: _ =>
    match state with
    | .partially fields =>
      let fields := fields.filter (· ≠ field)
      if fields.isEmpty then .initialized else .partially fields
    | state => state

def throughMutableReference (slot : Slot) (place : Place) : Bool :=
  decide (place.fields.head? = some "<deref>") && slot.ty matches .reference _ true

/-- The origins of a slot after an assignment: those of the new value and, for a part of
the slot, the old ones.  Nothing is recorded for a part whose value has none. -/
def carryOrigins (state : State) (place : Place) (slot : Slot) (valueOrigins : List Origin) :
    Except Error State :=
  let carried := (if place.fields.isEmpty then [] else slot.borrowOrigins) ++ valueOrigins
  if place.fields.isEmpty || !valueOrigins.isEmpty then
    let state := state.dropLoans place.root
    if carried.isEmpty then
      .ok (state.setSlot place.root { slot with referenceOrigin := none, borrowOrigins := [] })
    else
      state.attachBorrowOrigins place.root carried
  else
    .ok state

/-- `check_assignment`. -/
def checkAssignment (program : Program) (state : State) (place : Place) (value : Expr) :
    Except Error State := do
  let slot ← state.slot place.root
  ensure (slot.mutable || throughMutableReference slot place ||
    (slot.state matches .uninitialized | .moved)) (.immutable slot.name)
  state.ensureNoConflictingLoan place true
  let valueOrigins := state.borrowOrigins value
  let (_, state) ← state.checkExpr program .consume value
  state.ensureOutlives place.root valueOrigins
  let slot ← state.slot place.root
  let slot := { slot with state := InitState.assign slot.state place.fields }
  (state.setSlot place.root slot).carryOrigins place slot valueOrigins

/-! ## Joining states -/

/-- `merge_init`. -/
def mergeInit : InitState → InitState → InitState
  | .initialized, .initialized => .initialized
  | .uninitialized, _ | _, .uninitialized => .uninitialized
  | .moved, _ | _, .moved => .moved
  | .partially a, .partially b => .partially (a ++ b)
  | .partially fields, _ | _, .partially fields => .partially fields

/-- The state of a slot before a loop and at the end of its body, joined by
`merge_loop`. -/
def mergeLoopInit : InitState → InitState → InitState
  | .initialized, .initialized => .initialized
  | .uninitialized, _ => .uninitialized
  | _, .moved => .moved
  | _, .partially fields => .partially fields
  | before, _ => before

def joinLoans (left right : List Loan) : List Loan :=
  right.foldl (fun loans loan => if loans.contains loan then loans else loans ++ [loan]) left

/-- A slot at the join of two paths. -/
def mergeSlot (join : InitState → InitState → InitState) (slot a b : Slot) : Slot :=
  let origins := sortOrigins (a.borrowOrigins ++ b.borrowOrigins)
  { slot with
    state := join a.state b.state
    borrowOrigins := origins
    referenceOrigin := origins.head?.map Prod.fst }

/-- The slots and loans of `merge_from` and `merge_loop`, which differ in how they join
initialization. -/
def mergeWith (join : InitState → InitState → InitState) (state left right : State) : State :=
  { state with
    slots := fun id =>
      match state.slots id, left.slots id, right.slots id with
      | some slot, some a, some b => some (mergeSlot join slot a b)
      | slot, _, _ => slot
    loans := joinLoans left.loans right.loans }

def mergeFrom (state left right : State) : State :=
  mergeWith mergeInit state left right

def mergeLoop (state before body : State) : State :=
  mergeWith mergeLoopInit state before body

/-! ## Statements -/

/-- The end of a binding: a variable whose last use is this statement borrows nothing. -/
def releaseUnused (state : State) (id : SlotId) (name : String) (index : Nat)
    (lastUses : String → Option Nat) : State :=
  if (lastUses name).getD index = index then state.dropLoans id else state

/-- `let name = &place`: the loan is recorded, but not the origin of the slot. -/
def bindBorrow (program : Program) (state : State) (mutable : Bool) (name : String)
    (annotated : Option Ty) (borrowMutable : Bool) (target : PlaceExpr) (index : Nat)
    (lastUses : String → Option Nat) : Except Error State := do
  let place ← state.place target
  state.checkBorrow place borrowMutable
  let inner ← state.placeTy program place
  let ty := annotated.getD (.reference inner borrowMutable)
  let (id, state) ← state.declare name ty mutable true (some place)
  let state := state.addLoan place borrowMutable (some id)
  return state.releaseUnused id name index lastUses

/-- Every other binding with a value, and the assignment that declares its variable. -/
def bindValue (program : Program) (state : State) (mutable : Bool) (name : String)
    (annotated : Option Ty) (value : Expr) (index : Nat)
    (lastUses : String → Option Nat) : Except Error State := do
  let origins := state.borrowOrigins value
  let (ty, state) ← state.checkExpr program .consume value
  let (id, state) ← state.declare name (annotated.getD ty) mutable true
    (origins.head?.map Prod.fst)
  if origins.isEmpty then
    return state
  else
    let state ← state.attachBorrowOrigins id origins
    return state.releaseUnused id name index lastUses

def checkBinding (program : Program) (state : State) (mutable : Bool) (name : String)
    (annotated : Option Ty) (value : Option Expr) (index : Nat)
    (lastUses : String → Option Nat) : Except Error State :=
  match value with
  | some (.borrow borrowMutable target) =>
    state.bindBorrow program mutable name annotated borrowMutable target index lastUses
  | some value => state.bindValue program mutable name annotated value index lastUses
  | none => do
      let (_, state) ← state.declare name (annotated.getD .copy) mutable false none
      return state

/-- An assignment to a name.  The loans the new value brought are dropped at the end. -/
def checkNameAssignment (program : Program) (state : State) (name : String) (value : Expr)
    (index : Nat) (lastUses : String → Option Nat) : Except Error State :=
  match state.lookup name with
  | none => state.bindValue program true name none value index lastUses
  | some id => do
      let state ← state.checkAssignment program ⟨id, []⟩ value
      return state.dropLoans id

def fromParameter (state : State) (origins : List Origin) : Bool :=
  let roots := (origins.map fun origin => origin.1.root).dedup
  roots.length == 1 && roots.all fun root =>
    (state.slots root).any fun slot => slot.parameter && slot.ty.isReference

def returnError (state : State) (origins : List Origin) : Error :=
  match origins.head?.bind fun origin => state.slots origin.1.root with
  | none => .noOrigin
  | some slot => .returnsLocal slot.name

/-- A returned reference must come from a reference parameter. -/
def checkReturn (program : Program) (returnHasReference : Bool) (state : State)
    (value : Option Expr) : Except Error State :=
  match value with
  | none => .ok state
  | some value => do
      let origins := state.borrowOrigins value
      let (ty, state) ← state.checkExpr program .consume value
      ensure (!(returnHasReference || ty.containsReference || !origins.isEmpty) ||
        state.fromParameter origins) (state.returnError origins)
      return state

/-- The element type of `for name in place`. -/
def elementTy : Ty → Except Error Ty
  | .list element | .reference (.list element) _ => .ok element
  | _ => .error .notIterable

/-- The scope of one pass over the body of `for name in place`. -/
def openForEach (program : Program) (state : State) (name : String) (element : Ty)
    (origin : Option Place) : Except Error State := do
  let ty := if program.tyIsCopy element then element else .reference element false
  let (id, state) ← state.pushScope.declare name ty false true origin
  match origin with
  | some place => return state.addLoan place false (some id)
  | none => return state

/-- The scope of one pass over the body of `for name in first..last`. -/
def openForRange (state : State) (name : String) : Except Error State := do
  let (_, state) ← state.pushScope.declare name .copy false true none
  return state

mutual

/-- `check_statement`. -/
def checkStatement (program : Program) (returnHasReference : Bool) (index : Nat)
    (lastUses : String → Option Nat) : Statement → State → Except Error State
  | .binding mutable name annotated value, state =>
    state.checkBinding program mutable name annotated value index lastUses
  | .assignment name value, state =>
    state.checkNameAssignment program name value index lastUses
  | .placeAssignment target value, state => do
      let place ← state.place target
      state.checkAssignment program place value
  | .expression value, state => do
      let (_, state) ← state.checkExpr program .read value
      return state
  | .returns value, state => state.checkReturn program returnHasReference value
  | .ifElse condition thenBranch elseBranch, state => do
      let (_, state) ← state.checkExpr program .read condition
      let thenState ← checkContents program returnHasReference
        (fun name => lastUse name 0 thenBranch) 0 thenBranch state.pushScope
      let elseState ← checkContents program returnHasReference
        (fun name => lastUse name 0 elseBranch) 0 elseBranch state.pushScope
      return state.mergeFrom thenState.popScope elseState.popScope
  | .whileLoop condition body, state => do
      let (_, before) ← state.checkExpr program .read condition
      let bodyState ← checkContents program returnHasReference
        (fun name => lastUse name 0 body) 0 body before.pushScope
      let entry := before.mergeLoop before bodyState.popScope
      let (_, entry) ← entry.checkExpr program .read condition
      let repeated ← checkContents program returnHasReference
        (fun name => lastUse name 0 body) 0 body entry.pushScope
      return before.mergeLoop before repeated.popScope
  | .forRange name first last body, state => do
      let (_, state) ← state.checkExpr program .read first
      let (_, before) ← state.checkExpr program .read last
      let opened ← before.openForRange name
      let bodyState ← checkContents program returnHasReference
        (fun name => lastUse name 0 body) 0 body opened
      let entry := before.mergeLoop before bodyState.popScope
      let opened ← entry.openForRange name
      let repeated ← checkContents program returnHasReference
        (fun name => lastUse name 0 body) 0 body opened
      return before.mergeLoop before repeated.popScope
  | .forEach name iterable body, state => do
      let (ty, before) ← state.checkExpr program .read (.use iterable)
      let element ← elementTy ty
      let origin := (before.place iterable).toOption
      let opened ← before.openForEach program name element origin
      let bodyState ← checkContents program returnHasReference
        (fun name => lastUse name 0 body) 0 body opened
      let entry := before.mergeLoop before bodyState.popScope
      let opened ← entry.openForEach program name element origin
      let repeated ← checkContents program returnHasReference
        (fun name => lastUse name 0 body) 0 body opened
      return before.mergeLoop before repeated.popScope
  | .loop body, before => do
      let bodyState ← checkContents program returnHasReference
        (fun name => lastUse name 0 body) 0 body before.pushScope
      let entry := before.mergeLoop before bodyState.popScope
      let repeated ← checkContents program returnHasReference
        (fun name => lastUse name 0 body) 0 body entry.pushScope
      return before.mergeLoop before repeated.popScope
  | .breaks, state | .continues, state => .ok state

/-- `check_block_contents`, from the statement at `index` on. -/
def checkContents (program : Program) (returnHasReference : Bool)
    (lastUses : String → Option Nat) : Nat → List Statement → State → Except Error State
  | _, [], state => .ok state
  | index, statement :: statements, state => do
      let state ← checkStatement program returnHasReference index lastUses statement
        (state.expireLoans index lastUses)
      checkContents program returnHasReference lastUses (index + 1) statements state

end

/-- The slot of a parameter; a reference is its own origin. -/
def declareParameter (state : State) (name : String) (ty : Ty) : Except Error State := do
  let (id, state) ← state.declare name ty false true none
  let slot ← state.slot id
  let origins : List Origin :=
    match ty with
    | .reference _ mutable => [(⟨id, []⟩, mutable)]
    | _ => []
  return state.setSlot id { slot with parameter := true, borrowOrigins := origins }

def declareParameters : List (String × Ty) → State → Except Error State
  | [], state => .ok state
  | (name, ty) :: parameters, state => do
      let state ← state.declareParameter name ty
      declareParameters parameters state

end State

/-- `check_function`, from the first free slot on. -/
def checkFunction (program : Program) (nextSlot : SlotId) (function : Function) :
    Except Error State := do
  let returnHasReference := function.returnType.any Ty.containsReference
  ensure (!(returnHasReference &&
    decide (1 < (function.parameters.filter fun parameter => parameter.2.isReference).length)))
    .manyInputs
  let state ← State.declareParameters function.parameters ⟨fun _ => none, [[]], [], nextSlot⟩
  let state ← State.checkContents program returnHasReference
    (fun name => lastUse name 0 function.body) 0 function.body state
  return state.popScope

/-- `check`: the functions one after the other. -/
def checkFunctions (program : Program) : SlotId → List Function → Except Error Unit
  | _, [] => .ok ()
  | nextSlot, function :: functions => do
      let state ← checkFunction program nextSlot function
      checkFunctions program state.nextSlot functions

def check (program : Program) : Except Error Unit :=
  checkFunctions program 0 program.functions

end Disp.Ownership

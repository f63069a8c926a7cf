import Disp.Library.Structured
import Disp.Ownership.Analyzer

/-!
# Executions of a function body

A machine that runs function bodies and logs what matters for ownership: the
status of every variable a step reads, moves or borrows, whether a reference is
still good when the variable that holds it is read, and what a `break` or
`continue` leaves behind.  A field is only reached from the variable that owns
it; a run that would reach through a reference stops there.
-/

namespace Disp.Ownership

open Disp.Library Disp.Library.Structured

abbrev Variable := Nat × String

inductive Status
  | unset
  | held
  | moved
  deriving DecidableEq, Repr

/-- What a variable holds: a reference by its number, or anything else. -/
inductive Val
  | plain
  | reference (id : Nat)
  deriving DecidableEq, Repr

/-- A variable's storage; a value that is moved out leaves nothing behind. -/
structure Cell where
  ty : Ty
  status : Status
  val : Val
  deriving DecidableEq, Repr

/-- A reference that was made: what it points to, and whether that was moved out,
reassigned, dropped or, for a mutable one, used by another path since. -/
structure Reference where
  target : Variable
  path : List String
  mutable : Bool
  broken : Bool
  deriving DecidableEq, Repr

inductive Event
  /-- A variable with this status is read, moved or borrowed. -/
  | touch (status : Status)
  /-- A variable that holds a reference is read. -/
  | readReference (broken : Bool)
  /-- A loop is left or continued; `kept` if no variable from outside it is moved out that
  held its value when the loop began. -/
  | leave (kept : Bool)
  deriving DecidableEq, Repr

structure Machine where
  frames : Frames String Cell
  references : List Reference
  log : List Event
  deriving Repr

/-! ## Variables -/

namespace Machine

def emit (machine : Machine) (event : Event) : Machine :=
  { machine with log := machine.log ++ [event] }

def update (machine : Machine) (name : String) (f : Cell → Cell) : Machine :=
  { machine with frames := Frames.update name f machine.frames }

def declare (machine : Machine) (name : String) (cell : Cell) : Machine :=
  { machine with frames := Frames.declare name cell machine.frames }

/-! ## Storage -/

def covers (reference : Reference) (target : Variable) (path : List String) : Bool :=
  reference.target == target && fieldsOverlap reference.path path

/-- Storage is read other than by the reference `via`. -/
def readStorage (machine : Machine) (target : Variable) (path : List String)
    (via : Option Nat) : Machine :=
  { machine with
    references := machine.references.mapIdx fun id reference =>
      if reference.mutable && covers reference target path && decide (via ≠ some id) then
        { reference with broken := true }
      else reference }

def writeStorage (machine : Machine) (target : Variable) (path : List String) : Machine :=
  { machine with
    references := machine.references.map fun reference =>
      if covers reference target path then { reference with broken := true } else reference }

/-- A variable is read: its status is logged and, if it holds a reference, whether that
is still good. -/
def readVariable (machine : Machine) (cell : Cell) : Machine :=
  let machine := machine.emit (.touch cell.status)
  match cell.val with
  | .plain => machine
  | .reference id =>
    match machine.references[id]? with
    | none => machine
    | some reference =>
      (machine.emit (.readReference reference.broken)).readStorage reference.target
        reference.path (some id)

/-! ## Expressions -/

/-- The result of an expression. -/
structure Produced where
  ty : Ty
  val : Val

/-- Read or move a variable, or a field of it. -/
def access (program : Program) (machine : Machine) (place : PlaceExpr) (mode : UseMode) :
    Option (Produced × Machine) := do
  let (depth, cell) ← Frames.lookup place.root machine.frames
  let machine := (machine.readVariable cell).readStorage (depth, place.root) place.fields none
  match place.fields with
  | [] =>
    if mode = .consume ∧ program.tyIsCopy cell.ty = false then
      return (⟨cell.ty, cell.val⟩,
        (machine.writeStorage (depth, place.root) []).update place.root
          fun cell => { cell with status := .moved, val := .plain })
    else
      return (⟨cell.ty, cell.val⟩, machine)
  | fields =>
    if cell.ty.isReference then
      none
    else
      let ty ← (placeTy program cell.ty fields).toOption
      if mode = .consume ∧ program.tyIsCopy ty = false then
        return (⟨ty, .plain⟩, machine.writeStorage (depth, place.root) fields)
      else
        return (⟨ty, .plain⟩, machine)

/-- Make a reference to a variable or a field of it. -/
def borrow (program : Program) (machine : Machine) (mutable : Bool) (place : PlaceExpr) :
    Option (Produced × Machine) := do
  let (depth, cell) ← Frames.lookup place.root machine.frames
  if place.fields ≠ [] ∧ cell.ty.isReference then
    none
  let inner ← (placeTy program cell.ty place.fields).toOption
  let machine := (machine.emit (.touch cell.status)).readStorage (depth, place.root)
    place.fields none
  return (⟨.reference inner mutable, .reference machine.references.length⟩,
    { machine with
      references := machine.references ++ [⟨(depth, place.root), place.fields, mutable, false⟩] })

def evaluate (program : Program) (machine : Machine) (mode : UseMode) :
    Expr → Option (Produced × Machine)
  | .value ty => some (⟨ty, .plain⟩, machine)
  | .use place => machine.access program place mode
  | .move place => machine.access program place .consume
  | .borrow mutable place => machine.borrow program mutable place

/-! ## Statements -/

def bind (program : Program) (name : String) (annotated : Option Ty) (value : Option Expr)
    (machine : Machine) : Option Machine :=
  match value with
  | none => some (machine.declare name ⟨annotated.getD .copy, .unset, .plain⟩)
  | some value => do
      let (produced, machine) ← machine.evaluate program .consume value
      return machine.declare name ⟨annotated.getD produced.ty, .held, produced.val⟩

/-- `name = value`; an unknown name is declared. -/
def assign (program : Program) (name : String) (value : Expr) (machine : Machine) :
    Option Machine :=
  if (Frames.lookup name machine.frames).isSome then do
    let (produced, machine) ← machine.evaluate program .consume value
    let (depth, _) ← Frames.lookup name machine.frames
    return (machine.writeStorage (depth, name) []).update name fun cell =>
      { cell with status := .held, val := produced.val }
  else
    bind program name none (some value) machine

/-- `target = value` for a variable or a field. -/
def assignPlace (program : Program) (target : PlaceExpr) (value : Expr) (machine : Machine) :
    Option Machine := do
  let (produced, machine) ← machine.evaluate program .consume value
  let (depth, cell) ← Frames.lookup target.root machine.frames
  if target.fields ≠ [] ∧ cell.ty.isReference then
    none
  let machine := machine.writeStorage (depth, target.root) target.fields
  if target.fields = [] then
    return machine.update target.root fun cell =>
      { cell with status := .held, val := produced.val }
  else
    return machine

def observe (program : Program) (mode : UseMode) (value : Expr) (machine : Machine) :
    Option Machine :=
  (machine.evaluate program mode value).map Prod.snd

def enter (machine : Machine) : Machine :=
  { machine with frames := [] :: machine.frames }

/-- The end of a scope: its variables are gone. -/
def exit (machine : Machine) : Machine :=
  match machine.frames with
  | [] => machine
  | frame :: frames =>
    { (frame.foldl (fun machine entry => machine.writeStorage (frames.length, entry.1) [])
        machine) with frames }

/-- Every variable of `before` that held its value does so now. -/
def keeps (before now : Frames String Cell) : Bool :=
  Frames.all₂ (fun before now => decide (before.status = .held → now.status = .held))
    before now

/-- Leave or continue a loop that began with the variables `entry`. -/
def leaveLoop (entry : Frames String Cell) (machine : Machine) : Machine :=
  machine.emit (.leave (keeps entry
    (machine.frames.drop (machine.frames.length - entry.length))))

/-- The scope of one round of `for name in place`: the item is an element's copy, or a
reference into the collection.  The items of a loop over a reference are not followed. -/
def enterItem (program : Program) (name : String) (iterable : PlaceExpr)
    (machine : Machine) : Option Machine := do
  let (depth, cell) ← Frames.lookup iterable.root machine.frames
  let ty ← (placeTy program cell.ty iterable.fields).toOption
  let element ← (State.elementTy ty).toOption
  if program.tyIsCopy element then
    return machine.enter.declare name ⟨element, .held, .plain⟩
  else if cell.ty.isReference then
    return machine.enter.declare name ⟨.reference element false, .held, .plain⟩
  else
    return { machine.enter.declare name
        ⟨.reference element false, .held, .reference machine.references.length⟩ with
      references := machine.references ++
        [⟨(depth, iterable.root), iterable.fields, false, false⟩] }

mutual

/-- Run a statement; `entry` are the variables at the start of the enclosing loop. -/
def run (program : Program) (fuel : Nat) (entry : Frames String Cell) : Statement → Runner Machine
  | .binding _ name annotated value =>
    attempt .next (bind program name annotated value)
  | .assignment name value => attempt .next (assign program name value)
  | .placeAssignment target value => attempt .next (assignPlace program target value)
  | .expression value => attempt .next (observe program .read value)
  | .returns none => attempt .returned some
  | .returns (some value) => attempt .returned (observe program .consume value)
  | .ifElse condition thenBranch elseBranch =>
    andThen (attempt .next (observe program .read condition))
      (choose (within enter exit (runAll program fuel entry thenBranch))
        (within enter exit (runAll program fuel entry elseBranch)))
  | .whileLoop condition body => fun machine =>
    iterate true (observe program .read condition)
      (within enter exit (runAll program fuel machine.frames body)) fuel machine
  | .forRange name first last body =>
    andThen (attempt .next (observe program .read first))
      (andThen (attempt .next (observe program .read last)) fun machine =>
        iterate true some
          (within (fun machine => machine.enter.declare name ⟨.copy, .held, .plain⟩)
            exit (runAll program fuel machine.frames body)) fuel machine)
  | .forEach name iterable body =>
    andThen (attempt .next (observe program .read (.use iterable))) fun machine =>
      iterate true some
        (andThen (attempt .next (enterItem program name iterable))
          (within id exit (runAll program fuel machine.frames body))) fuel machine
  | .loop body => fun machine =>
    iterate false some (within enter exit (runAll program fuel machine.frames body)) fuel
      machine
  | .breaks => attempt .broke fun machine => some (machine.leaveLoop entry)
  | .continues => attempt .continued fun machine => some (machine.leaveLoop entry)

def runAll (program : Program) (fuel : Nat) (entry : Frames String Cell) :
    List Statement → Runner Machine
  | [] => attempt .next some
  | statement :: statements =>
    andThen (run program fuel entry statement) (runAll program fuel entry statements)

end

/-- The machine at the start of a function: its parameters hold values. -/
def start (function : Function) : Machine where
  frames := function.parameters.foldl
    (fun frames (name, ty) => Frames.declare name ⟨ty, .held, .plain⟩ frames) [[]]
  references := []
  log := []

def logOf (program : Program) (function : Function) (fuel : Nat) (choices : List Bool) :
    List Event :=
  (runAll program fuel [] function.body (start function) choices).state.log

end Machine

end Disp.Ownership

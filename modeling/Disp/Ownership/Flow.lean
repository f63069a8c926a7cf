import Disp.Ownership.Slots

/-!
# Definite initialization

What the checker knows about which variables hold a value, without the loans: an
analysis of whole variables over a stack of scopes.  On the states of the checker
it computes exactly what the checker does whenever the checker accepts.
-/

namespace Disp.Ownership

open Disp.Library

/-! ## Whole variables -/

def PlaceExpr.whole (place : PlaceExpr) : Bool :=
  place.fields.isEmpty

def Expr.whole : Expr → Bool
  | .value _ => true
  | .use place | .move place | .borrow _ place => place.whole

mutual

/-- The statement reads, moves, borrows and assigns whole variables only. -/
def Statement.whole : Statement → Bool
  | .binding _ _ _ value => value.all Expr.whole
  | .assignment _ value => value.whole
  | .placeAssignment target value => target.whole && value.whole
  | .expression value => value.whole
  | .returns value => value.all Expr.whole
  | .ifElse condition thenBranch elseBranch =>
    condition.whole && (wholeAll thenBranch && wholeAll elseBranch)
  | .whileLoop condition body => condition.whole && wholeAll body
  | .forRange _ first last body => first.whole && (last.whole && wholeAll body)
  | .forEach _ iterable body => iterable.whole && wholeAll body
  | .loop body => wholeAll body
  | .breaks | .continues => true

def wholeAll : List Statement → Bool
  | [] => true
  | statement :: statements => statement.whole && wholeAll statements

end

/-! ## The analysis -/

/-- What is known of a variable. -/
structure Info where
  ty : Ty
  state : InitState
  deriving DecidableEq, Repr

abbrev Flow := Frames String Info

def Info.become (state : InitState) (info : Info) : Info :=
  { info with state }

namespace Flow

def use (program : Program) (mode : UseMode) (name : String) (flow : Flow) :
    Option (Ty × Flow) := do
  let (_, info) ← Frames.lookup name flow
  if info.state = .initialized then
    if mode = .consume ∧ program.tyIsCopy info.ty = false then
      return (info.ty, Frames.update name (Info.become .moved) flow)
    else
      return (info.ty, flow)
  else
    none

def expr (program : Program) (mode : UseMode) : Expr → Flow → Option (Ty × Flow)
  | .value ty, flow => some (ty, flow)
  | .use place, flow => use program mode place.root flow
  | .move place, flow => use program .consume place.root flow
  | .borrow mutable place, flow => do
      let (_, info) ← Frames.lookup place.root flow
      if info.state = .initialized then return (.reference info.ty mutable, flow) else none

def declare (name : String) (info : Info) (flow : Flow) : Option Flow :=
  match flow with
  | [] => none
  | scope :: _ =>
    if List.lookup name scope = none then some (Frames.declare name info flow) else none

def bind (program : Program) (name : String) (annotated : Option Ty) (value : Option Expr)
    (flow : Flow) : Option Flow :=
  match value with
  | some value => do
      let (ty, flow) ← expr program .consume value flow
      declare name ⟨annotated.getD ty, .initialized⟩ flow
  | none => declare name ⟨annotated.getD .copy, .uninitialized⟩ flow

def set (program : Program) (name : String) (value : Expr) (flow : Flow) : Option Flow := do
  let (_, flow) ← expr program .consume value flow
  return Frames.update name (Info.become .initialized) flow

def assign (program : Program) (name : String) (value : Expr) (flow : Flow) : Option Flow :=
  match Frames.lookup name flow with
  | none => bind program name none (some value) flow
  | some _ => set program name value flow

def join (f : InitState → InitState → InitState) (left right : Flow) : Flow :=
  Frames.zipWith (fun a b => ⟨a.ty, f a.state b.state⟩) left right

/-- Two passes over the body of a loop, from `before` and from the join of `before` with
the end of the first pass. -/
def twice (before : Flow) (head : Flow → Option Flow) (body : Flow → Option Flow) :
    Option Flow := do
  let once ← body before
  let entry ← head (join State.mergeLoopInit before once.tail)
  let again ← body entry
  return join State.mergeLoopInit before again.tail

/-! The scope of one pass over the body of a loop, by the kind of loop. -/

def enter (flow : Flow) : Option Flow :=
  some ([] :: flow)

def range (name : String) (flow : Flow) : Option Flow :=
  declare name ⟨.copy, .initialized⟩ ([] :: flow)

def item (program : Program) (name : String) (element : Ty) (flow : Flow) : Option Flow :=
  declare name ⟨if program.tyIsCopy element then element else .reference element false,
    .initialized⟩ ([] :: flow)

mutual

def statement (program : Program) : Statement → Flow → Option Flow
  | .binding _ name annotated value, flow => bind program name annotated value flow
  | .assignment name value, flow => assign program name value flow
  | .placeAssignment target value, flow => do
      let _ ← Frames.lookup target.root flow
      set program target.root value flow
  | .expression value, flow => do
      let (_, flow) ← expr program .read value flow
      return flow
  | .returns none, flow => some flow
  | .returns (some value), flow => do
      let (_, flow) ← expr program .consume value flow
      return flow
  | .ifElse condition thenBranch elseBranch, flow => do
      let (_, flow) ← expr program .read condition flow
      let thenFlow ← contents program thenBranch ([] :: flow)
      let elseFlow ← contents program elseBranch ([] :: flow)
      return join State.mergeInit thenFlow.tail elseFlow.tail
  | .whileLoop condition body, flow => do
      let (_, before) ← expr program .read condition flow
      twice before (fun entry => (expr program .read condition entry).map Prod.snd)
        fun flow => (enter flow).bind (contents program body)
  | .forRange name first last body, flow => do
      let (_, flow) ← expr program .read first flow
      let (_, before) ← expr program .read last flow
      twice before some fun flow => (range name flow).bind (contents program body)
  | .forEach name iterable body, flow => do
      let (ty, before) ← use program .read iterable.root flow
      let element ← (State.elementTy ty).toOption
      twice before some fun flow =>
        (item program name element flow).bind (contents program body)
  | .loop body, flow => twice flow some fun flow => (enter flow).bind (contents program body)
  | .breaks, flow | .continues, flow => some flow

def contents (program : Program) : List Statement → Flow → Option Flow
  | [], flow => some flow
  | first :: rest, flow => do
      let flow ← statement program first flow
      contents program rest flow

end

/-- The parameters of a function hold values. -/
def parameters : List (String × Ty) → Flow → Option Flow
  | [], flow => some flow
  | (name, ty) :: rest, flow => do
      let flow ← declare name ⟨ty, .initialized⟩ flow
      parameters rest flow

def function (program : Program) (function : Function) : Option Flow := do
  let flow ← parameters function.parameters [[]]
  contents program function.body flow

end Flow

end Disp.Ownership

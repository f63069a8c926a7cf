import Disp.Library.Attempt
import Disp.Library.Frames

/-!
# The state of the interpreter

The stack of scopes, the call depth and, behind them, everything else that a running program can
change.  Values and what can be done to them are parameters.
-/

namespace Disp.Interpreter

open Disp.Library

inductive PlaceSegment
  | field (name : String)
  | index (position : Nat)
  | subslice (start stop : Nat)
  | mutexValue
  deriving DecidableEq, Repr

/-- A variable, by the index of its scope, and a part of it. -/
structure Place where
  scope : Nat
  name : String
  fields : List PlaceSegment
  deriving DecidableEq, Repr

/-- `Interpreter`: the innermost scope comes first, and in it the last declared name. -/
structure Session (ν ω : Type) where
  scopes : Frames String ν
  callDepth : Nat
  world : ω

/-- `RuntimeFault`.  `exhausted` is a run that was cut off. -/
inductive Fault (ν : Type)
  | error (message : String)
  | propagate (value : ν)
  | exhausted
  deriving DecidableEq, Repr

inductive Flow (ν : Type)
  | normal
  | returned (value : ν)
  | broke
  | continued
  deriving DecidableEq, Repr

inductive AssignmentOperator
  | assign
  | add
  | subtract
  | multiply
  | divide
  deriving DecidableEq, Repr

abbrev Run (ν ω α : Type) := Attempt (Session ν ω) (Fault ν) α

/-- What the interpreter does with values `ν`, with type annotations `τ` and with the rest `ω`
of the state. -/
structure Host (τ ν ω : Type) where
  unit : ν
  uninitialized : ν
  isUninitialized : ν → Bool
  /-- `Value::Bool`. -/
  truth : ν → Option Bool
  /-- `Value::Int`. -/
  integer : ν → Option Int
  ofInteger : Int → ν
  /-- The elements of an array, slice, list or set. -/
  items : ν → Option (List ν)
  /-- `Value::Reference`. -/
  reference : ν → Option (Place × Bool)
  /-- `Value::CaptureReference`. -/
  captureReference : ν → Option (Place × Bool)
  coerceValue : ν → τ → Except String ν
  coerceLike : ν → ν → Except String ν
  /-- `evaluate_binary` for the operator of a compound assignment. -/
  combine : AssignmentOperator → ν → ν → Except String ν
  readValuePath : ν → List PlaceSegment → Option ν
  writeValuePath : ν → List PlaceSegment → ν → Option ν
  /-- `charge_steps`. -/
  chargeSteps : ω → Except String ω
  /-- `reconcile_object_memory`. -/
  reconcileObjectMemory : Frames String ν → ω → Except String ω

section

variable {τ ν ω : Type}

def error {α : Type} (message : String) : Run ν ω α :=
  Attempt.fail (.error message)

def lift {α : Type} (result : Except String α) : Run ν ω α :=
  match result with
  | .ok value => pure value
  | .error message => error message

def onWorld (change : Frames String ν → ω → Except String ω) : Run ν ω Unit := fun session =>
  match change session.scopes session.world with
  | .ok world => (.ok (), { session with world })
  | .error message => (.error (.error message), session)

namespace Session

def pushScope (values : List (String × ν)) (session : Session ν ω) : Session ν ω :=
  { session with scopes := values :: session.scopes }

def popScope (session : Session ν ω) : Session ν ω :=
  { session with scopes := session.scopes.tail }

def insert (name : String) (value : ν) (session : Session ν ω) : Session ν ω :=
  { session with scopes := Frames.declare name value session.scopes }

def lookup (session : Session ν ω) (name : String) : Option ν :=
  (Frames.lookup name session.scopes).map Prod.snd

end Session

variable (host : Host τ ν ω)

def readPlace (session : Session ν ω) (place : Place) : Option ν := do
  let root ← Frames.get session.scopes (place.scope, place.name)
  host.readValuePath root place.fields

def writePlace (session : Session ν ω) (place : Place) (value : ν) : Option (Session ν ω) := do
  let root ← Frames.get session.scopes (place.scope, place.name)
  let root ← host.writeValuePath root place.fields value
  return { session with scopes := Frames.set root (place.scope, place.name) session.scopes }

/-- The value of a variable, through a captured reference. -/
def current (session : Session ν ω) (name : String) : Option ν :=
  match session.lookup name with
  | none => none
  | some value =>
    match host.captureReference value with
    | some (place, _) => readPlace host session place
    | none => some value

/-- `assign`: the innermost variable with the name, in any scope. -/
def assign (session : Session ν ω) (name : String) (value : ν) : Option (Session ν ω) :=
  match session.lookup name with
  | none => none
  | some old =>
    match host.captureReference old with
    | some (place, mutable) => if mutable then writePlace host session place value else none
    | none =>
      some { session with scopes := Frames.update name (fun _ => value) session.scopes }

/-- Replace the session, or fail. -/
def replace (message : String) (change : Session ν ω → Option (Session ν ω)) : Run ν ω Unit :=
  fun session =>
    match change session with
    | some session => (.ok (), session)
    | none => (.error (.error message), session)

def readAt (message : String) (place : Place) : Run ν ω ν := do
  let value ← Attempt.inspect fun session => readPlace host session place
  Attempt.ofOption (.error message) value

end

end Disp.Interpreter

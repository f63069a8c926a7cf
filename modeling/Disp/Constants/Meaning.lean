import Disp.Coercion.Values
import Disp.Constants.Typing
import Disp.Library.Obligations

/-!
# Constants at their types

What a constant expression computes when every operation is performed at the type that the
checker gives to its operands.  One evaluator is used with two semantics: the checked one
performs each operation as the interpreter does, with its faults; the exact one computes with
unbounded integers and records for each operation what the type would have to hold.  Both round
the floats of type `f32`; a third evaluation knows no types, and so it rounds nothing.
-/

namespace Disp.Constants

open Disp.Arithmetic (BinaryOperator CompareOp Fault Kind UnaryOperator alignLiterals
  applyUnary checkedArith)
open Disp.Coercion (width?)
open Disp.Library.MachineInt (ArithOp)
open Disp.Library.Obligations (Logged)
open Disp.Patterns (Pattern Registry checkPattern)
open Disp.TypeChecker

/-! ## Types -/

/-- The machine type of an integer type; the type of a literal has none. -/
def integerKind : Ty → Option Kind
  | .app .int _ => some .int
  | .app .uint _ => some .uint
  | .app (.signed width) _ => (width? width).map .signed
  | .app (.unsigned width) _ => (width? width).map .unsigned
  | _ => none

def isFloat32 : Ty → Bool
  | .app .float32 _ => true
  | _ => false

/-- The type at which `check_binary` takes both operands. -/
def operandType (left right : Ty) : Ty :=
  let (left, right) := alignLiterals left right
  if !typesCompatible left right && typesCompatible right left then right else left

/-! ## One evaluator -/

abbrev Meant (F : Type) := Value Int F

/-- How operations at a type are performed: an integer becomes one of a type, is negated or
operated on at it, and a float is rounded to an `f32`. -/
structure Semantics (F : Type) (m : Type → Type) where
  hold : Kind → Int → m Int
  negate : Kind → Int → m Int
  arith : Kind → ArithOp → Int → Int → m Int
  single : F → m F
  stuck : {α : Type} → m α

/-- The names in scope with their types and values, the innermost first; none for a variable. -/
abbrev Env (F : Type) (m : Type → Type) := List (String × Option (Ty × m (Meant F)))

section Evaluator

variable {F : Type} {m : Type → Type} [Monad m] (floats : FloatOps F) (semantics : Semantics F m)

def Env.types (env : Env F m) : Types := env.map fun (name, entry) => (name, entry.map Prod.fst)

/-- A value where one of the type is wanted. -/
def convert (ty : Ty) (value : Meant F) : m (Meant F) :=
  match integerKind ty, value with
  | some kind, .number n => Value.number <$> semantics.hold kind n
  | some _, _ => semantics.stuck
  | none, .float x => if isFloat32 ty then Value.float <$> semantics.single x else pure (.float x)
  | none, value => pure value

/-- The unary operators on an operand of the type. -/
def unaryAt (ty : Ty) : UnaryOperator → Meant F → m (Meant F)
  | .negate, .number n =>
    match integerKind ty with
    | some kind => Value.number <$> semantics.negate kind n
    | none => pure (.number (-n))
  | .negate, .float x => pure (.float (floats.negate x))
  | .not, .bool b => pure (.bool !b)
  | _, _ => semantics.stuck

/-- Equality of two scalars; constants that are arrays or structs are not compared. -/
def scalarsEqual : Meant F → Meant F → Option Bool
  | .number a, .number b => some (decide (a = b))
  | .float x, .float y => some (floats.equal x y)
  | .string a, .string b => some (decide (a = b))
  | .character a, .character b => some (decide (a = b))
  | .bool a, .bool b => some (a == b)
  | _, _ => none

/-- The strict binary operators on two operands of the type. -/
def operateAt (ty : Ty) : BinaryOperator → Meant F → Meant F → m (Meant F)
  | .arith op, .number a, .number b =>
    match integerKind ty with
    | some kind => Value.number <$> semantics.arith kind op a b
    | none => semantics.stuck
  | .arith op, .float x, .float y =>
    if isFloat32 ty then Value.float <$> semantics.single (floats.arith op x y)
    else pure (.float (floats.arith op x y))
  | .compare op, .number a, .number b => pure (.bool (op.holds a b))
  | .compare op, .float x, .float y => pure (.bool (floats.holds op x y))
  | .equal, left, right =>
    match scalarsEqual floats left right with
    | some equal => pure (.bool equal)
    | none => semantics.stuck
  | .notEqual, left, right =>
    match scalarsEqual floats left right with
    | some equal => pure (.bool !equal)
    | none => semantics.stuck
  | .and, .bool _, .bool right | .or, .bool _, .bool right => pure (.bool right)
  | _, _, _ => semantics.stuck

def binaryAt (ty : Ty) (op : BinaryOperator) (left right : Meant F) : m (Meant F) := do
  let left ← convert semantics ty left
  let right ← convert semantics ty right
  operateAt floats semantics ty op left right

/-- The value of `&&` or `||` that the left operand decides alone. -/
def decidedAt : BinaryOperator → Meant F → Option (Meant F)
  | .and, .bool false => some (.bool false)
  | .or, .bool true => some (.bool true)
  | _, _ => none

def fieldAt (value : Meant F) (field : String) : m (Meant F) :=
  match value with
  | .struct _ fields =>
    match fields.lookup field with
    | some value => pure value
    | none => semantics.stuck
  | _ => semantics.stuck

/-- The value of a field of a struct, where its declared type is wanted. -/
def givenAt (registry : Registry) (id : Nat) (arguments : List Ty) (name : String)
    (value : Meant F) : m (Meant F) :=
  match declaredField registry id arguments name with
  | some ty => convert semantics ty value
  | none => semantics.stuck

def matchMeant (pattern : Pattern) (value : Meant F) : Option (Bindings Int F) :=
  patternMatches (fun literal => (literal.val : Int)) (fun literal => -(literal.val : Int))
    pattern value []

/-- The scope of an arm: the bound values with the types that `check_pattern` gives the names. -/
def boundAt (registry : Registry) (pattern : Pattern) (scrutinee : Ty)
    (bindings : Bindings Int F) : Env F m :=
  bindings.map fun (name, value) =>
    match checkPattern registry pattern scrutinee with
    | .ok (_, tys) => (name, (tys.lookup name).map (·, pure value))
    | .error _ => (name, none)

mutual

/-- The value of an expression, with each operation performed at its type. -/
def evaluateAt (registry : Registry) (env : Env F m) : Expr F → m (Meant F)
  | .integer value => pure (.number value.val)
  | .float value => pure (.float value)
  | .string value => pure (.string value)
  | .character value => pure (.character value)
  | .bool value => pure (.bool value)
  | .identifier name =>
    match env.lookup name with
    | some (some (_, value)) => value
    | _ => semantics.stuck
  | .array values => do
      let values ← evaluateAll registry env values
      return .array values
  | .structConstruct name fields =>
    match typeOf registry env.types (.structConstruct name fields) with
    | .ok (.app (.struct id) arguments) => do
        let fields ← evaluateFields registry env id arguments fields []
        return .struct name fields
    | _ => semantics.stuck
  | .fieldAccess object field => do
      let object ← evaluateAt registry env object
      fieldAt semantics object field
  | .unary op operand =>
    match typeOf registry env.types operand with
    | .ok ty => do
        let value ← evaluateAt registry env operand
        unaryAt floats semantics ty op value
    | _ => semantics.stuck
  | .binary left op right =>
    match typeOf registry env.types left, typeOf registry env.types right with
    | .ok leftTy, .ok rightTy => do
        let left ← evaluateAt registry env left
        match decidedAt op left with
        | some value => return value
        | none =>
          let right ← evaluateAt registry env right
          binaryAt floats semantics (operandType leftTy rightTy) op left right
    | _, _ => semantics.stuck
  | .matchArms value arms =>
    match typeOf registry env.types value with
    | .ok scrutinee => do
        let value ← evaluateAt registry env value
        evaluateArms registry env scrutinee value arms
    | _ => semantics.stuck
  | .other => semantics.stuck

def evaluateAll (registry : Registry) (env : Env F m) : List (Expr F) → m (List (Meant F))
  | [] => return []
  | value :: values => do
      let value ← evaluateAt registry env value
      let values ← evaluateAll registry env values
      return value :: values

def evaluateFields (registry : Registry) (env : Env F m) (id : Nat) (arguments : List Ty) :
    List (String × Expr F) → List (String × Meant F) → m (List (String × Meant F))
  | [], given => return given
  | (name, value) :: fields, given => do
      let value ← evaluateAt registry env value
      let value ← givenAt semantics registry id arguments name value
      evaluateFields registry env id arguments fields ((name, value) :: given)

def evaluateArms (registry : Registry) (env : Env F m) (scrutinee : Ty) (value : Meant F) :
    List (Pattern × Option (Expr F) × Expr F) → m (Meant F)
  | [] => semantics.stuck
  | (pattern, none, result) :: arms =>
    match matchMeant pattern value with
    | some bindings =>
      evaluateAt registry (boundAt registry pattern scrutinee bindings ++ env) result
    | none => evaluateArms registry env scrutinee value arms
  | (pattern, some guard, result) :: arms =>
    match matchMeant pattern value with
    | some bindings => do
        let holds ← evaluateAt registry (boundAt registry pattern scrutinee bindings ++ env) guard
        match holds with
        | .bool true =>
          evaluateAt registry (boundAt registry pattern scrutinee bindings ++ env) result
        | .bool false => evaluateArms registry env scrutinee value arms
        | _ => semantics.stuck
    | none => evaluateArms registry env scrutinee value arms

end

def constantAt (registry : Registry) (env : Env F m) (ty : Ty) (value : Expr F) : m (Meant F) := do
  let value ← evaluateAt floats semantics registry env value
  convert semantics ty value

end Evaluator

/-! ## The checked semantics -/

/-- Why a checked evaluation has no value. -/
inductive Stop
  | fault (fault : Fault)
  | illTyped
  deriving DecidableEq, Repr

def numberOf : Except Fault Disp.Arithmetic.Value → Except Stop Int
  | .ok (.number _ n) => .ok n
  | .ok (.bool _) => .error .illTyped
  | .error fault => .error (.fault fault)

/-- The interpreter's operations, at the given machine types. -/
def checkedSemantics {F : Type} (floats : FloatOps F) : Semantics F (Except Stop) where
  hold kind n := if n ∈ kind.range then .ok n else .error (.fault (.outsideRange n kind))
  negate kind n := numberOf (applyUnary .negate (.number kind n))
  arith kind op a b := numberOf (checkedArith kind op a b)
  single x := .ok (floats.single x)
  stuck := .error .illTyped

/-! ## The exact semantics -/

/-- What an operation asks of the type at which it is performed. -/
inductive Requirement
  | fits (kind : Kind) (n : Int)
  | negation (kind : Kind) (n : Int)
  | operation (kind : Kind) (op : ArithOp) (a b : Int)

/-- An integer operation stays in the range of its type.  Only `u128` has a negation among the
unsigned types, and a remainder also needs its quotient. -/
def Requirement.InRange : Requirement → Prop
  | .fits kind n => n ∈ kind.range
  | .negation (.unsigned .w128) n => n ≤ 2 ^ 127
  | .negation .uint _ | .negation (.unsigned _) _ => False
  | .negation kind n => -n ∈ kind.range
  | .operation kind .add a b => a + b ∈ kind.range
  | .operation kind .subtract a b => a - b ∈ kind.range
  | .operation kind .multiply a b => a * b ∈ kind.range
  | .operation kind .divide a b => a.tdiv b ∈ kind.range
  | .operation kind .remainder a b =>
    a.tmod b ∈ kind.range ∧ ¬(a = kind.computed.lo ∧ b = -1)

/-- The integer operations, with division truncating toward zero. -/
def exactArith : ArithOp → Int → Int → Option Int
  | .add, a, b => some (a + b)
  | .subtract, a, b => some (a - b)
  | .multiply, a, b => some (a * b)
  | .divide, a, b => if b = 0 then none else some (a.tdiv b)
  | .remainder, a, b => if b = 0 then none else some (a.tmod b)

def exactSemantics {F : Type} (floats : FloatOps F) : Semantics F (Logged Requirement) where
  hold kind n := Logged.owing n (.fits kind n)
  negate kind n := Logged.owing (-n) (.negation kind n)
  arith kind op a b :=
    match exactArith op a b with
    | some n => Logged.owing n (.operation kind op a b)
    | none => none
  single x := pure (floats.single x)
  stuck := none

/-! ## Values without types -/

/-- The names in scope with their values, the innermost first. -/
abbrev Plain (F : Type) := List (String × Option (Meant F))

section Plain

variable {F : Type} (floats : FloatOps F)

def plainUnary : UnaryOperator → Meant F → Option (Meant F)
  | .negate, .number n => some (.number (-n))
  | .negate, .float x => some (.float (floats.negate x))
  | .not, .bool b => some (.bool !b)
  | _, _ => none

def plainComparison (ordering : Ordering) (op : BinaryOperator) : Option (Meant F) :=
  if comparison op then some (.bool (compareOrdering ordering op)) else none

def plainOperator (left : Meant F) (op : BinaryOperator) (right : Meant F) : Option (Meant F) :=
  match left, op, right with
  | .number a, .arith op, .number b => (exactArith op a b).map .number
  | .float x, .arith op, .float y => some (.float (floats.arith op x y))
  | .string a, .arith .add, .string b => some (.string (a ++ b))
  | .bool a, .and, .bool b => some (.bool (a && b))
  | .bool a, .or, .bool b => some (.bool (a || b))
  | .bool a, .equal, .bool b => some (.bool (a == b))
  | .bool a, .notEqual, .bool b => some (.bool (a != b))
  | .number a, op, .number b => plainComparison (compareOfLessAndEq a b) op
  | .float x, op, .float y =>
    if comparison op then some (.bool (compareFloats floats x y op)) else none
  | .string a, op, .string b => plainComparison (compareOfLessAndEq a b) op
  | .character a, op, .character b => plainComparison (compareOfLessAndEq a b) op
  | _, _, _ => none

def plainField (value : Meant F) (field : String) : Option (Meant F) :=
  match value with
  | .struct _ fields => fields.lookup field
  | _ => none

def plainBound (bindings : Bindings Int F) : Plain F :=
  bindings.map fun (name, value) => (name, some value)

mutual

/-- The value of an expression on unbounded integers and unrounded floats. -/
def plainValue (env : Plain F) : Expr F → Option (Meant F)
  | .integer value => some (.number value.val)
  | .float value => some (.float value)
  | .string value => some (.string value)
  | .character value => some (.character value)
  | .bool value => some (.bool value)
  | .identifier name => (env.lookup name).bind id
  | .array values => (plainAll env values).map .array
  | .structConstruct name fields => (plainFields env fields []).map (.struct name)
  | .fieldAccess object field => (plainValue env object).bind (plainField · field)
  | .unary op operand => (plainValue env operand).bind (plainUnary floats op)
  | .binary left op right => do
      let left ← plainValue env left
      match decidedAt op left with
      | some value => some value
      | none =>
        let right ← plainValue env right
        plainOperator floats left op right
  | .matchArms value arms => do
      let value ← plainValue env value
      plainArms env value arms
  | .other => none

def plainAll (env : Plain F) : List (Expr F) → Option (List (Meant F))
  | [] => some []
  | value :: values => do
      let value ← plainValue env value
      let values ← plainAll env values
      some (value :: values)

def plainFields (env : Plain F) :
    List (String × Expr F) → List (String × Meant F) → Option (List (String × Meant F))
  | [], given => some given
  | (name, value) :: fields, given => do
      let value ← plainValue env value
      plainFields env fields ((name, value) :: given)

def plainArms (env : Plain F) (value : Meant F) :
    List (Pattern × Option (Expr F) × Expr F) → Option (Meant F)
  | [] => none
  | (pattern, none, result) :: arms =>
    match matchMeant pattern value with
    | some bindings => plainValue (plainBound bindings ++ env) result
    | none => plainArms env value arms
  | (pattern, some guard, result) :: arms =>
    match matchMeant pattern value with
    | some bindings => do
        let holds ← plainValue (plainBound bindings ++ env) guard
        match holds with
        | .bool true => plainValue (plainBound bindings ++ env) result
        | _ => plainArms env value arms
    | none => plainArms env value arms

end

end Plain

/-! ## Surveying a program -/

/-- A constant with its type, its checked evaluation at that type, its exact value with what the
evaluation asks of the types, and its value without types. -/
structure Entry (F : Type) where
  name : String
  ty : Ty
  typed : Except Stop (Meant F)
  meaning : Logged Requirement (Meant F)
  plain : Option (Meant F)

abbrev Known (F : Type) := List (String × Option (Entry F))

section Survey

variable {F : Type} (floats : FloatOps F) (registry : Registry)

def Known.types (known : Known F) : Types :=
  known.map fun (name, entry) => (name, entry.map Entry.ty)

def Known.checked (known : Known F) : Env F (Except Stop) :=
  known.map fun (name, entry) => (name, entry.map fun entry => (entry.ty, entry.typed))

def Known.exact (known : Known F) : Env F (Logged Requirement) :=
  known.map fun (name, entry) => (name, entry.map fun entry => (entry.ty, entry.meaning))

def Known.plain (known : Known F) : Plain F :=
  known.map fun (name, entry) => (name, entry.bind Entry.plain)

/-- A constant as the checker accepts it. -/
def constantEntry (known : Known F) (name : String) (annotated : Option Ty) (value : Expr F) :
    Except CheckError (Entry F) := do
  let ty ← constantType registry known.types annotated value
  .ok {
    name, ty
    typed := constantAt floats (checkedSemantics floats) registry known.checked ty value
    meaning := constantAt floats (exactSemantics floats) registry known.exact ty value
    plain := plainValue floats known.plain value }

def plainNames (names : List String) : Known F := names.map (·, none)

mutual

/-- The checker on the constants of a statement: the names in scope after it, and the constants.
A variable is in scope after its own value. -/
def surveyItem (known : Known F) : Item F → Except CheckError (Known F × List (Entry F))
  | .constant name annotated value => do
      let entry ← constantEntry floats registry known name annotated value
      .ok ((name, some entry) :: known, [entry])
  | .binding name closures => do
      let entries ← surveyItems known closures
      .ok ((name, none) :: known, entries)
  | .assigned name => .ok ((name, none) :: known, [])
  | .scope names patternNames items => do
      let entries ← surveyItems (plainNames (names ++ patternNames) ++ known) items
      .ok (known, entries)

def surveyItems (known : Known F) : List (Item F) → Except CheckError (List (Entry F))
  | [] => .ok []
  | item :: items => do
      let (known, entries) ← surveyItem known item
      let later ← surveyItems known items
      .ok (entries ++ later)

end

def surveyBodies : List (Function F) → Except CheckError (List (Entry F))
  | [] => .ok []
  | function :: functions => do
      let entries ← surveyItems floats registry (plainNames function.parameters) function.body
      let later ← surveyBodies functions
      .ok (entries ++ later)

def survey (program : Program F) : Except CheckError (List (Entry F)) :=
  surveyBodies floats registry program.bodies

end Survey

end Disp.Constants

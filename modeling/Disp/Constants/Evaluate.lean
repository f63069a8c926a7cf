import Disp.Arithmetic.Values
import Disp.Patterns.Coverage

/-!
# Compile-time evaluation

The evaluator of local constants.  It computes with untyped integers, a sign and a 128-bit
magnitude, and knows nothing of the types that the checker gave to the expressions.

The scopes of a function body are kept as one list of names, the innermost first; a name is
bound to the value of a constant or, for any other variable, to nothing.
-/

namespace Disp.Constants

open Disp.Arithmetic (BinaryOperator CompareOp UnaryOperator)
open Disp.Library.MachineInt (ArithOp)
open Disp.Patterns (Pattern)
open Disp.TypeChecker (Ty)

/-- The `f64` operations of the evaluator, and the rounding of an `f64` to an `f32`. -/
structure FloatOps (F : Type) where
  arith : ArithOp → F → F → F
  negate : F → F
  equal : F → F → Bool
  holds : CompareOp → F → F → Bool
  single : F → F

/-- The expressions that may stand in a constant; `other` is any of the rest. -/
inductive Expr (F : Type)
  | integer (value : Fin (2 ^ 128))
  | float (value : F)
  | string (value : String)
  | character (value : Char)
  | bool (value : Bool)
  | identifier (name : String)
  | array (values : List (Expr F))
  | structConstruct (name : String) (fields : List (String × Expr F))
  | fieldAccess (object : Expr F) (field : String)
  | unary (op : UnaryOperator) (operand : Expr F)
  | binary (left : Expr F) (op : BinaryOperator) (right : Expr F)
  | matchArms (value : Expr F) (arms : List (Pattern × Option (Expr F) × Expr F))
  | other

/-! ## Integers -/

/-- A sign and a `u128`; zero has no sign. -/
structure Integer where
  negative : Bool
  magnitude : Fin (2 ^ 128)
  normal : negative = true → magnitude.val ≠ 0
  deriving DecidableEq

/-- A result that is checked to be a `u128`. -/
def checkedU128 (n : Nat) : Option (Fin (2 ^ 128)) :=
  if h : n < 2 ^ 128 then some ⟨n, h⟩ else none

namespace Integer

def positive (magnitude : Fin (2 ^ 128)) : Integer := ⟨false, magnitude, by simp⟩

def normalized (negative : Bool) (magnitude : Fin (2 ^ 128)) : Integer :=
  ⟨negative && magnitude.val != 0, magnitude, by simp⟩

def negate (n : Integer) : Integer := normalized (!n.negative) n.magnitude

def difference (a b : Fin (2 ^ 128)) : Fin (2 ^ 128) :=
  ⟨a.val - b.val, by omega⟩

def checkedAdd (left right : Integer) : Option Integer :=
  if left.negative = right.negative then
    (checkedU128 (left.magnitude.val + right.magnitude.val)).map (normalized left.negative)
  else if right.magnitude ≤ left.magnitude then
    some (normalized left.negative (difference left.magnitude right.magnitude))
  else
    some (normalized right.negative (difference right.magnitude left.magnitude))

def compare (left right : Integer) : Ordering :=
  match left.negative, right.negative with
  | true, false => .lt
  | false, true => .gt
  | false, false => compareOfLessAndEq left.magnitude.val right.magnitude.val
  | true, true => compareOfLessAndEq right.magnitude.val left.magnitude.val

def toInt (n : Integer) : Int := if n.negative then -n.magnitude.val else n.magnitude.val

end Integer

/-! ## Values -/

/-- The values of constant expressions over a kind of numbers: `Integer` at compile time.
The fields of a struct are looked up by name, the last one given for a name first. -/
inductive Value (ν F : Type)
  | number (value : ν)
  | float (value : F)
  | string (value : String)
  | character (value : Char)
  | bool (value : Bool)
  | array (values : List (Value ν F))
  | struct (name : String) (fields : List (String × Value ν F))

abbrev Bindings (ν F : Type) := List (String × Value ν F)

section Matching

variable {ν F : Type} [DecidableEq ν] (positive negative : Fin (2 ^ 128) → ν)

mutual

/-- `pattern_matches`, given the numbers that literals stand for: the bindings of a match, the
last one first. -/
def patternMatches : Pattern → Value ν F → Bindings ν F → Option (Bindings ν F)
  | .wildcard, _, bindings => some bindings
  | .binding name, value, bindings => some ((name, value) :: bindings)
  | .integer pattern, .number n, bindings => if n = positive pattern then some bindings else none
  | .negativeInteger pattern, .number n, bindings =>
    if n = negative pattern then some bindings else none
  | .string pattern, .string value, bindings => if value = pattern then some bindings else none
  | .character pattern, .character value, bindings =>
    if value = pattern then some bindings else none
  | .bool pattern, .bool value, bindings => if value = pattern then some bindings else none
  | .or alternatives, value, bindings => anyMatches alternatives value bindings
  | .struct typeName fields _, .struct name values, bindings =>
    if name = typeName then fieldsMatch fields values bindings else none
  | _, _, _ => none

def anyMatches : List Pattern → Value ν F → Bindings ν F → Option (Bindings ν F)
  | [], _, _ => none
  | alternative :: alternatives, value, bindings =>
    match patternMatches alternative value bindings with
    | some bindings => some bindings
    | none => anyMatches alternatives value bindings

def fieldsMatch : List (String × Pattern) → List (String × Value ν F) → Bindings ν F →
    Option (Bindings ν F)
  | [], _, bindings => some bindings
  | (name, pattern) :: fields, values, bindings =>
    match values.lookup name with
    | some value => (patternMatches pattern value bindings).bind (fieldsMatch fields values)
    | none => none

end

end Matching

abbrev ConstValue (F : Type) := Value Integer F

/-! ## Operators -/

structure Limits where
  steps : Nat
  depth : Nat
  valueNodes : Nat
  stringBytes : Nat

/-- `Limits::default`. -/
def Limits.standard : Limits :=
  { steps := 100000, depth := 128, valueNodes := 65536, stringBytes := 1048576 }

/-- The two kinds of diagnostics, with their messages. -/
inductive ConstError
  | evaluation (message : String)
  | limit (message : String)
  deriving DecidableEq, Repr

def comparison : BinaryOperator → Bool
  | .equal | .notEqual | .compare _ => true
  | _ => false

def compareOrdering (ordering : Ordering) : BinaryOperator → Bool
  | .equal => ordering.isEq
  | .notEqual => !ordering.isEq
  | .compare .less => ordering.isLT
  | .compare .lessEqual => !ordering.isGT
  | .compare .greater => ordering.isGT
  | .compare .greaterEqual => !ordering.isLT
  | _ => false

section Evaluation

variable {F : Type} (floats : FloatOps F)

def compareFloats (left right : F) : BinaryOperator → Bool
  | .equal => floats.equal left right
  | .notEqual => !floats.equal left right
  | .compare op => floats.holds op left right
  | _ => false

def evalUnary : UnaryOperator → ConstValue F → Except ConstError (ConstValue F)
  | .negate, .number value => .ok (.number value.negate)
  | .negate, .float value => .ok (.float (floats.negate value))
  | .not, .bool value => .ok (.bool !value)
  | _, _ => .error (.evaluation "invalid compile-time unary operation")

/-- The integer operations of `eval_binary`, on signs and magnitudes. -/
def evalArith (op : ArithOp) (left right : Integer) : Except ConstError Integer :=
  let checked : Option Integer → Except ConstError Integer
    | some value => .ok value
    | none => .error (.evaluation "compile-time integer overflow")
  match op with
  | .add => checked (left.checkedAdd right)
  | .subtract => checked (left.checkedAdd right.negate)
  | .multiply =>
    checked ((checkedU128 (left.magnitude.val * right.magnitude.val)).map
      (.normalized (left.negative != right.negative)))
  | .divide =>
    if right.magnitude.val = 0 then
      .error (.evaluation "division by zero during compile-time evaluation")
    else
      .ok (.normalized (left.negative != right.negative) (left.magnitude / right.magnitude))
  | .remainder =>
    if right.magnitude.val = 0 then
      .error (.evaluation "division by zero during compile-time evaluation")
    else
      .ok (.normalized left.negative (left.magnitude % right.magnitude))

/-- The end of `eval_binary`, with both operands evaluated. -/
def evalOperator (left : ConstValue F) (op : BinaryOperator) (right : ConstValue F) :
    Except ConstError (ConstValue F) :=
  match left, op, right with
  | .number left, .arith op, .number right => (evalArith op left right).map .number
  | .float left, .arith op, .float right => .ok (.float (floats.arith op left right))
  | .string left, .arith .add, .string right => .ok (.string (left ++ right))
  | .bool left, .and, .bool right => .ok (.bool (left && right))
  | .bool left, .or, .bool right => .ok (.bool (left || right))
  | .bool left, .equal, .bool right => .ok (.bool (left == right))
  | .bool left, .notEqual, .bool right => .ok (.bool (left != right))
  | .number left, op, .number right =>
    if comparison op then .ok (.bool (compareOrdering (left.compare right) op))
    else .error (.evaluation "invalid compile-time binary operation")
  | .float left, op, .float right =>
    if comparison op then .ok (.bool (compareFloats floats left right op))
    else .error (.evaluation "invalid compile-time binary operation")
  | .string left, op, .string right =>
    if comparison op then .ok (.bool (compareOrdering (compareOfLessAndEq left right) op))
    else .error (.evaluation "invalid compile-time binary operation")
  | .character left, op, .character right =>
    if comparison op then .ok (.bool (compareOrdering (compareOfLessAndEq left right) op))
    else .error (.evaluation "invalid compile-time binary operation")
  | _, _, _ => .error (.evaluation "invalid compile-time binary operation")

/-- The value of `&&` or `||` that the left operand decides alone. -/
def decidedByLeft : BinaryOperator → ConstValue F → Option (ConstValue F)
  | .and, .bool false => some (.bool false)
  | .or, .bool true => some (.bool true)
  | _, _ => none

/-! ## Evaluation -/

abbrev Scopes (F : Type) := List (String × Option (ConstValue F))

/-- `lookup`: the innermost scope that has the name decides. -/
def lookupValue (scopes : Scopes F) (name : String) : Option (ConstValue F) :=
  (scopes.lookup name).bind id

abbrev Steps := StateT Nat (Except ConstError)

/-- The start of `eval`: a step is counted, then the limits are checked. -/
def countStep (limits : Limits) (depth : Nat) : Steps Unit := fun steps =>
  if 2 ^ 64 ≤ steps + 1 then
    .error (.limit "compile-time step counter overflowed")
  else if limits.steps < steps + 1 then
    .error (.limit s!"compile-time evaluation exceeded {limits.steps} steps")
  else if limits.depth < depth then
    .error (.limit s!"compile-time evaluation exceeded depth {limits.depth}")
  else
    .ok ((), steps + 1)

/-- The field access of `eval`. -/
def fieldOf (value : ConstValue F) (field : String) : Except ConstError (ConstValue F) :=
  match value with
  | .struct _ fields =>
    match fields.lookup field with
    | some value => .ok value
    | none => .error (.evaluation s!"unknown compile-time field `{field}`")
  | _ => .error (.evaluation "compile-time field access requires a struct value")

/-- A guard holds only as the Boolean `true`. -/
def isTrue : ConstValue F → Bool
  | .bool true => true
  | _ => false

def bound (bindings : Bindings Integer F) : Scopes F :=
  bindings.map fun (name, value) => (name, some value)

def matchConst (pattern : Pattern) (value : ConstValue F) : Option (Bindings Integer F) :=
  patternMatches Integer.positive (Integer.normalized true) pattern value []

mutual

def eval (limits : Limits) (scopes : Scopes F) (depth : Nat) : Expr F → Steps (ConstValue F)
  | .integer value => do
      countStep limits depth
      return .number (.positive value)
  | .float value => do
      countStep limits depth
      return .float value
  | .string value => do
      countStep limits depth
      return .string value
  | .character value => do
      countStep limits depth
      return .character value
  | .bool value => do
      countStep limits depth
      return .bool value
  | .identifier name => do
      countStep limits depth
      match lookupValue scopes name with
      | some value => return value
      | none => throw (.evaluation s!"`{name}` has no compile-time value")
  | .array values => do
      countStep limits depth
      let values ← evalAll limits scopes (depth + 1) values
      return .array values
  | .structConstruct name fields => do
      countStep limits depth
      let fields ← evalFields limits scopes (depth + 1) fields []
      return .struct name fields
  | .fieldAccess object field => do
      countStep limits depth
      let object ← eval limits scopes (depth + 1) object
      liftM (fieldOf object field)
  | .unary op operand => do
      countStep limits depth
      let value ← eval limits scopes (depth + 1) operand
      liftM (evalUnary floats op value)
  | .binary left op right => do
      countStep limits depth
      let left ← eval limits scopes (depth + 1) left
      match decidedByLeft op left with
      | some value => return value
      | none =>
        let right ← eval limits scopes (depth + 1) right
        liftM (evalOperator floats left op right)
  | .matchArms value arms => do
      countStep limits depth
      let value ← eval limits scopes (depth + 1) value
      evalArms limits scopes (depth + 1) value arms
  | .other => do
      countStep limits depth
      throw (.evaluation "expression is not available in deterministic compile-time evaluation")

def evalAll (limits : Limits) (scopes : Scopes F) (depth : Nat) :
    List (Expr F) → Steps (List (ConstValue F))
  | [] => return []
  | value :: values => do
      let value ← eval limits scopes depth value
      let values ← evalAll limits scopes depth values
      return value :: values

/-- The fields of a struct, each put before those that are there. -/
def evalFields (limits : Limits) (scopes : Scopes F) (depth : Nat) :
    List (String × Expr F) → List (String × ConstValue F) → Steps (List (String × ConstValue F))
  | [], given => return given
  | (name, value) :: fields, given => do
      let value ← eval limits scopes depth value
      evalFields limits scopes depth fields ((name, value) :: given)

def evalArms (limits : Limits) (scopes : Scopes F) (depth : Nat) (value : ConstValue F) :
    List (Pattern × Option (Expr F) × Expr F) → Steps (ConstValue F)
  | [] => throw (.evaluation "constant match has no matching arm")
  | (pattern, none, result) :: arms =>
    match matchConst pattern value with
    | some bindings => eval limits (bound bindings ++ scopes) depth result
    | none => evalArms limits scopes depth value arms
  | (pattern, some guard, result) :: arms =>
    match matchConst pattern value with
    | some bindings => do
        let holds ← eval limits (bound bindings ++ scopes) depth guard
        if isTrue holds then eval limits (bound bindings ++ scopes) depth result
        else evalArms limits scopes depth value arms
    | none => evalArms limits scopes depth value arms

end

/-! ## Programs -/

/-- What the statements of a body are to constants.  `binding` is a `let` or `var` with the
closures in its value, and `assigned` the assignment to a new name, which only the checker takes
for a variable.  A `scope` is a block, with the names that its loop or closure introduces; the
names that the pattern of an arm binds are in scope for the checker only. -/
inductive Item (F : Type)
  | constant (name : String) (annotated : Option Ty) (value : Expr F)
  | binding (name : String) (closures : List (Item F))
  | assigned (name : String)
  | scope (names patternNames : List String) (items : List (Item F))

structure Constant (F : Type) where
  function : String
  name : String
  value : ConstValue F

/-- The evaluator's counters and the constants so far. -/
structure Evaluator (F : Type) where
  steps : Nat
  valueNodes : Nat
  stringBytes : Nat
  constants : List (Constant F)

abbrev Visitor (F : Type) := StateT (Evaluator F) (Except ConstError)

/-- `saturating_add` of `usize`. -/
def saturatingAdd (a b : Nat) : Nat := min (a + b) (2 ^ 64 - 1)

def addMeasure (part whole : Nat × Nat) : Nat × Nat :=
  (saturatingAdd whole.1 part.1, saturatingAdd whole.2 part.2)

mutual

/-- The nodes of a value and the bytes of its strings. -/
def measure : ConstValue F → Nat × Nat
  | .string value => (1, value.utf8ByteSize)
  | .array values => measureAll values (1, 0)
  | .struct _ fields => measureFields fields (1, 0)
  | _ => (1, 0)

def measureAll : List (ConstValue F) → Nat × Nat → Nat × Nat
  | [], whole => whole
  | value :: values, whole => measureAll values (addMeasure (measure value) whole)

def measureFields : List (String × ConstValue F) → Nat × Nat → Nat × Nat
  | [], whole => whole
  | (_, value) :: fields, whole => measureFields fields (addMeasure (measure value) whole)

end

def chargeValue (limits : Limits) (value : ConstValue F) : Visitor F Unit := fun state =>
  let state := { state with
    valueNodes := saturatingAdd state.valueNodes (measure value).1
    stringBytes := saturatingAdd state.stringBytes (measure value).2 }
  if limits.valueNodes < state.valueNodes then
    .error (.limit s!"compile-time values exceeded {limits.valueNodes} nodes")
  else if limits.stringBytes < state.stringBytes then
    .error (.limit s!"compile-time strings exceeded {limits.stringBytes} bytes")
  else
    .ok ((), state)

/-- The value of a constant, with the steps taken for it. -/
def evalConstant (limits : Limits) (scopes : Scopes F) (value : Expr F) :
    Visitor F (ConstValue F) := fun state =>
  match eval floats limits scopes 0 value state.steps with
  | .ok (value, steps) => .ok (value, { state with steps })
  | .error error => .error error

def pushConstant (constant : Constant F) : Visitor F Unit := fun state =>
  .ok ((), { state with constants := state.constants ++ [constant] })

def shadowed (names : List String) : Scopes F := names.map (·, none)

mutual

/-- `visit_statement`: the names in scope after it.  A variable is in scope of the closures in
its own value. -/
def visitItem (limits : Limits) (function : String) (scopes : Scopes F) :
    Item F → Visitor F (Scopes F)
  | .constant name _ value => do
      let value ← evalConstant floats limits scopes value
      chargeValue limits value
      pushConstant { function, name, value }
      return (name, some value) :: scopes
  | .binding name closures => do
      visitItems limits function ((name, none) :: scopes) closures
      return (name, none) :: scopes
  | .assigned _ => return scopes
  | .scope names _ items => do
      visitItems limits function (shadowed names ++ scopes) items
      return scopes

/-- `visit_block`. -/
def visitItems (limits : Limits) (function : String) (scopes : Scopes F) :
    List (Item F) → Visitor F Unit
  | [] => return ()
  | item :: items => do
      let scopes ← visitItem limits function scopes item
      visitItems limits function scopes items

end

structure Function (F : Type) where
  name : String
  parameters : List String
  body : List (Item F)

structure Program (F : Type) where
  functions : List (Function F × Bool)
  implementations : List (List (Function F))

/-- The bodies that are visited, under the names of the report: the functions that are not
external, then the methods. -/
def Program.bodies (program : Program F) : List (Function F) :=
  (program.functions.filter (!·.2)).map Prod.fst ++
    (program.implementations.zipIdx.map fun (methods, index) =>
      methods.map fun method => { method with name := s!"impl{index}.{method.name}" }).flatten

def visitBodies (limits : Limits) : List (Function F) → Visitor F Unit
  | [] => return ()
  | function :: functions => do
      visitItems floats limits function.name (shadowed function.parameters) function.body
      visitBodies limits functions

structure Report (F : Type) where
  constants : List (Constant F)
  steps : Nat

def evaluateWithLimits (limits : Limits) (program : Program F) : Except ConstError (Report F) :=
  match visitBodies floats limits program.bodies ⟨0, 0, 0, []⟩ with
  | .ok (_, state) => .ok { constants := state.constants, steps := state.steps }
  | .error error => .error error

def evaluate (program : Program F) : Except ConstError (Report F) :=
  evaluateWithLimits floats .standard program

end Evaluation

end Disp.Constants

import Disp.Library.MachineInt

/-!
# Run-time integers

The interpreter's integer and Boolean values and the operations it performs on
them: `coerce_value`, the pairwise coercion of operands, `evaluate_binary`,
comparison and the unary operators, each with its faults.
-/

namespace Disp.Arithmetic

open Disp.Library.MachineInt

/-- The widths of the fixed-width integer types. -/
inductive Width
  | w8
  | w16
  | w32
  | w64
  | w128
  deriving DecidableEq, Repr

def Width.bits : Width → Nat
  | .w8 => 8
  | .w16 => 16
  | .w32 => 32
  | .w64 => 64
  | .w128 => 128

/-- The run-time representations of integers: `Value::Int`, `Value::UInt`,
`Value::Signed` and `Value::Unsigned` with their width. -/
inductive Kind
  | int
  | uint
  | signed (width : Width)
  | unsigned (width : Width)
  deriving DecidableEq, Repr

def Kind.range : Kind → IntRange
  | .int => signedRange 64
  | .uint => unsignedRange 64
  | .signed width => signedRange width.bits
  | .unsigned width => unsignedRange width.bits

/-- `value_type_name`. -/
def Kind.typeName : Kind → String
  | .int => "int"
  | .uint => "uint"
  | .signed width => s!"i{width.bits}"
  | .unsigned width => s!"u{width.bits}"

inductive Value
  | number (kind : Kind) (value : Int)
  | bool (value : Bool)
  deriving DecidableEq, Repr

inductive CompareOp
  | less
  | lessEqual
  | greater
  | greaterEqual
  deriving DecidableEq, Repr

inductive BinaryOperator
  | arith (op : ArithOp)
  | equal
  | notEqual
  | compare (op : CompareOp)
  | and
  | or
  deriving DecidableEq, Repr

inductive UnaryOperator
  | negate
  | not
  deriving DecidableEq, Repr

/-! ## Faults -/

/-- The errors of integer and Boolean evaluation.  A failed coercion keeps the value
it failed on. -/
inductive Fault
  | overflow (kind : Kind) (op : ArithOp)
  | negationOverflow (kind : Kind)
  | divisionByZero
  | remainderByZero
  | notRepresentable (value : Value) (kind : Kind)
  | outsideRange (value : Int) (kind : Kind)
  | invalidOperands (op : ArithOp)
  | invalidComparison
  | invalidUnary
  | leftNotBool (op : BinaryOperator)
  | rightNotBool (op : BinaryOperator)
  | notShortCircuited
  | undefinedVariable (name : String)
  | invalidTarget
  deriving DecidableEq, Repr

/-- The operation in an overflow message. -/
def overflowNoun : ArithOp → String
  | .add => "addition"
  | .subtract => "subtraction"
  | .multiply => "multiplication"
  | .divide => "division"
  | .remainder => "remainder"

/-- The operator's variant name, as the debug format prints it. -/
def debugName : ArithOp → String
  | .add => "Add"
  | .subtract => "Subtract"
  | .multiply => "Multiply"
  | .divide => "Divide"
  | .remainder => "Remainder"

def symbol : BinaryOperator → String
  | .or => "||"
  | _ => "&&"

/-- The text of the interpreter's diagnostic. -/
def Fault.message : Fault → String
  | .overflow .int op => s!"integer overflow in {overflowNoun op}"
  | .overflow .uint op => s!"uint overflow in {overflowNoun op}"
  | .overflow kind _ => s!"{kind.typeName} overflow in arithmetic"
  | .negationOverflow .int => "integer overflow in unary `-`"
  | .negationOverflow kind => s!"{kind.typeName} overflow in negation"
  | .divisionByZero => "division by zero"
  | .remainderByZero => "remainder by zero"
  | .notRepresentable _ kind => s!"value cannot be represented as {kind.typeName}"
  | .outsideRange value kind => s!"value {value} is outside {kind.typeName} range"
  | .invalidOperands op => s!"invalid operands for `{debugName op}`"
  | .invalidComparison => "invalid comparison operands"
  | .invalidUnary => "invalid operand for unary operator"
  | .leftNotBool op => s!"left operand of `{symbol op}` is not Bool"
  | .rightNotBool op => s!"right operand of `{symbol op}` is not Bool"
  | .notShortCircuited => "logical operator was not short-circuited"
  | .undefinedVariable name => s!"undefined variable `{name}`"
  | .invalidTarget => "invalid assignment target"

/-! ## Coercion -/

/-- `coerce_value` to an integer type.  A fixed-width target takes every integer in
its range, but no unsigned value beyond `i128` and no negative one
where it is unsigned; `int` and `uint` only convert each other's values, and
leave everything else as it is. -/
def coerceValue (value : Value) (kind : Kind) : Except Fault Value :=
  match kind, value with
  | .signed width, .number source n =>
    if source = .unsigned .w128 ∧ (signedRange 128).hi < n then
      .error (.notRepresentable value kind)
    else if n ∈ (Kind.signed width).range then
      .ok (.number (.signed width) n)
    else
      .error (.outsideRange n kind)
  | .unsigned width, .number _ n =>
    if n < 0 then
      .error (.notRepresentable value kind)
    else if n ∈ (Kind.unsigned width).range then
      .ok (.number (.unsigned width) n)
    else
      .error (.outsideRange n kind)
  | .signed _, .bool _ | .unsigned _, .bool _ => .error (.notRepresentable value kind)
  | .uint, .number .int n => if 0 ≤ n then .ok (.number .uint n) else .ok value
  | .int, .number .uint n =>
    if n ≤ (signedRange 64).hi then .ok (.number .int n) else .ok value
  | .int, _ | .uint, _ => .ok value

/-- `coerce_like`: coercion to the representation of another value; a Boolean has no
integer type name, and nothing is coerced to it. -/
def coerceLike (value target : Value) : Except Fault Value :=
  match target with
  | .number kind _ => coerceValue value kind
  | .bool _ => .ok value

/-- Which operand of a pair `coerce_numeric_pair` converts, and to what. -/
inductive PairCoercion
  | left
  | right
  | neither
  deriving DecidableEq, Repr

/-- The case table of `coerce_numeric_pair` on integer representations. -/
def pairCoercion : Kind → Kind → PairCoercion
  | .signed a, .signed b =>
    if a.bits < b.bits then .left else if b.bits < a.bits then .right else .neither
  | .unsigned a, .unsigned b =>
    if a.bits < b.bits then .left else if b.bits < a.bits then .right else .neither
  | .unsigned unsigned, .signed signed =>
    if unsigned.bits < signed.bits then .left else .neither
  | .signed signed, .unsigned unsigned =>
    if unsigned.bits < signed.bits then .right else .neither
  | .int, .signed width => if 128 ≤ width.bits then .left else .neither
  | .uint, .unsigned width => if 128 ≤ width.bits then .left else .neither
  | .unsigned width, .uint => if 128 ≤ width.bits then .right else .neither
  | .signed _, .int | .unsigned _, .int | .uint, .int => .right
  | _, _ => .neither

def coerceNumericPair (left right : Value) : Except Fault (Value × Value) :=
  match left, right with
  | .number a _, .number b _ =>
    match pairCoercion a b with
    | .left => (coerceLike left right).map (·, right)
    | .right => (coerceLike right left).map (left, ·)
    | .neither => .ok (left, right)
  | _, _ => .ok (left, right)

/-! ## Operators -/

def CompareOp.holds : CompareOp → Int → Int → Bool
  | .less, a, b => decide (a < b)
  | .lessEqual, a, b => decide (a ≤ b)
  | .greater, a, b => decide (b < a)
  | .greaterEqual, a, b => decide (b ≤ a)

/-- The machine type an operation is computed in: fixed-width operands are held in
128 bits. -/
def Kind.computed : Kind → IntRange
  | .int => signedRange 64
  | .uint => unsignedRange 64
  | .signed _ => signedRange 128
  | .unsigned _ => unsignedRange 128

/-- A checked operation on two operands of one representation.  The fixed-width
operations report a zero divisor of a remainder as a division. -/
def checkedArith (kind : Kind) (op : ArithOp) (a b : Int) : Except Fault Value :=
  if b = 0 ∧ op = .divide then
    .error .divisionByZero
  else if b = 0 ∧ op = .remainder then
    .error (if kind = .int ∨ kind = .uint then .remainderByZero else .divisionByZero)
  else
    match (kind.computed.checked op a b).bind kind.range.hold with
    | some n => .ok (.number kind n)
    | none => .error (.overflow kind op)

/-- `evaluate_binary` on operands that are already coerced. -/
def evaluateBinary (op : BinaryOperator) (left right : Value) : Except Fault Value :=
  match op with
  | .arith op =>
    match left, right with
    | .number a n, .number b m =>
      if a = b then checkedArith a op n m else .error (.invalidOperands op)
    | _, _ => .error (.invalidOperands op)
  | .equal => .ok (.bool (decide (left = right)))
  | .notEqual => .ok (.bool (decide (left ≠ right)))
  | .compare op =>
    match left, right with
    | .number a n, .number b m =>
      if a = b then .ok (.bool (op.holds n m)) else .error .invalidComparison
    | _, _ => .error .invalidComparison
  | .and | .or => .error .notShortCircuited

/-- The strict binary operators of `evaluate`: coerce the pair, then operate. -/
def applyBinary (op : BinaryOperator) (left right : Value) : Except Fault Value :=
  match coerceNumericPair left right with
  | .error fault => .error fault
  | .ok (left, right) => evaluateBinary op left right

/-- The unary operators of `evaluate`. -/
def applyUnary (op : UnaryOperator) (value : Value) : Except Fault Value :=
  match op, value with
  | .negate, .number .int n =>
    if -n ∈ Kind.int.range then .ok (.number .int (-n)) else .error (.negationOverflow .int)
  | .negate, .number (.signed width) n =>
    if -n ∈ (Kind.signed width).range then .ok (.number (.signed width) (-n))
    else .error (.negationOverflow (.signed width))
  | .negate, .number (.unsigned .w128) n =>
    if n ≤ 2 ^ 127 then .ok (.number (.signed .w128) (-n)) else .error .invalidUnary
  | .not, .bool b => .ok (.bool !b)
  | _, _ => .error .invalidUnary

end Disp.Arithmetic

import Disp.Arithmetic.Values
import Disp.TypeChecker.Types

/-!
# Integer and Boolean expressions

The expressions over integers and Booleans with the checker's typing of them
(`check_expression`, `check_binary`) and the interpreter's `evaluate`, and
compound assignment to a variable or to a field or element.
-/

namespace Disp.Arithmetic

open Disp.Library.MachineInt Disp.TypeChecker

/-- Expressions over integers and Booleans; a literal is a `u128`. -/
inductive Expr
  | integer (value : Fin (2 ^ 128))
  | bool (value : Bool)
  | identifier (name : String)
  | unary (op : UnaryOperator) (operand : Expr)
  | binary (left : Expr) (op : BinaryOperator) (right : Expr)
  deriving Repr

/-- A field or element of a variable, by the path that leads to it. -/
inductive Segment
  | field (name : String)
  | index (position : Nat)
  deriving DecidableEq, Repr

/-- The target of an assignment: a variable, or a place inside one. -/
inductive Target
  | whole (name : String)
  | part (root : String) (first : Segment) (rest : List Segment)
  deriving DecidableEq, Repr

/-- `target op= value`; the source has no compound remainder. -/
structure Compound where
  target : Target
  op : ArithOp
  value : Expr
  compound : op ≠ .remainder

/-! ## Typing -/

/-- The types of integer and Boolean variables and places. -/
inductive Scalar
  | number (kind : Kind)
  | bool
  deriving DecidableEq, Repr

def Scalar.ty : Scalar → Ty
  | .number .int => .int
  | .number .uint => .uint
  | .number (.signed width) => .signed width.bits
  | .number (.unsigned width) => .unsigned width.bits
  | .bool => .bool

abbrev Context := Target → Option Scalar

inductive TypeError
  | unknownVariable (name : String)
  | unaryMinus (found : Ty)
  | unaryNot (found : Ty)
  | negativeLiteral
  | mismatch (expected found : Ty)
  | secretEquality
  | signingKeyEquality
  | operator (op : BinaryOperator) (found : Ty)
  | compound (found : Ty)
  deriving Repr

def requireSame (expected actual : Ty) : Except TypeError Unit :=
  if typesCompatible expected actual then .ok () else .error (.mismatch expected actual)

def isIntLiteral : Ty → Bool
  | .app (.intLiteral _) _ | .app (.negativeIntLiteral _) _ => true
  | _ => false

def isFloatLiteral : Ty → Bool
  | .app .floatLiteral _ => true
  | _ => false

def isFloat : Ty → Bool
  | .app .float _ | .app .float32 _ => true
  | _ => false

/-- The first half of `check_binary`: a literal operand takes the other one's type. -/
def alignLiterals (left right : Ty) : Ty × Ty :=
  if isIntLiteral left && isIntLiteral right then
    (.int, .int)
  else if isFloatLiteral left && isFloatLiteral right then
    (.app .float [], .app .float [])
  else if isIntLiteral left && right.isInteger && typesCompatible right left then
    (right, right)
  else if isIntLiteral right && left.isInteger && typesCompatible left right then
    (left, left)
  else if isFloatLiteral left && isFloat right then
    (right, right)
  else if isFloatLiteral right && isFloat left then
    (left, left)
  else
    (left, right)

def checkBinary (op : BinaryOperator) (left right : Ty) : Except TypeError Ty := do
  let (left, right) := alignLiterals left right
  let left :=
    if !typesCompatible left right && typesCompatible right left then right else left
  requireSame left right
  match op with
  | .arith _ => if left.isNumeric then .ok left else .error (.operator op left)
  | .equal | .notEqual =>
    if left = .app .secretBytes [] then .error .secretEquality
    else if left = .app .ed25519SigningKey [] then .error .signingKeyEquality
    else .ok .bool
  | .compare _ => if left.isNumeric then .ok .bool else .error (.operator op left)
  | .and | .or => if left = .bool then .ok .bool else .error (.operator op left)

/-- The unary arm of `check_expression`.  Negating a negative literal type leaves it as
it is. -/
def checkUnary (op : UnaryOperator) (ty : Ty) : Except TypeError Ty :=
  match op with
  | .negate =>
    if ty.isNumeric then
      match ty with
      | .app (.intLiteral value) _ =>
        if value ≤ 2 ^ 127 then .ok (.negativeIntLiteral (-value))
        else .error .negativeLiteral
      | other => .ok other
    else
      .error (.unaryMinus ty)
  | .not => if ty = .bool then .ok .bool else .error (.unaryNot ty)

def checkExpression (context : Context) : Expr → Except TypeError Ty
  | .integer value => .ok (.intLiteral value)
  | .bool _ => .ok .bool
  | .identifier name =>
    match context (.whole name) with
    | some scalar => .ok scalar.ty
    | none => .error (.unknownVariable name)
  | .unary op operand => do
      let ty ← checkExpression context operand
      checkUnary op ty
  | .binary left op right => do
      let leftTy ← checkExpression context left
      let rightTy ← checkExpression context right
      checkBinary op leftTy rightTy

/-- Compound assignment: a variable's type must take the value's, a place is checked
like a binary operation. -/
def checkCompound (context : Context) (statement : Compound) : Except TypeError Unit := do
  match statement.target, context statement.target with
  | .whole name, none => .error (.unknownVariable name)
  | .whole _, some scalar =>
    let valueTy ← checkExpression context statement.value
    requireSame scalar.ty valueTy
    if scalar.ty.isNumeric then .ok () else .error (.compound scalar.ty)
  | .part root _ _, none => .error (.unknownVariable root)
  | .part _ _ _, some scalar =>
    let valueTy ← checkExpression context statement.value
    let _ ← checkBinary (.arith statement.op) scalar.ty valueTy
    .ok ()

/-! ## Evaluation -/

abbrev Store := Target → Option Value

/-- The outcome of a binary operation that its left operand already decides. -/
def decidedByLeft : BinaryOperator → Value → Option (Except Fault Value)
  | .and, .bool false => some (.ok (.bool false))
  | .or, .bool true => some (.ok (.bool true))
  | .and, .number _ _ => some (.error (.leftNotBool .and))
  | .or, .number _ _ => some (.error (.leftNotBool .or))
  | _, _ => none

/-- The end of a binary operation whose operands are both evaluated. -/
def applyOperator : BinaryOperator → Value → Value → Except Fault Value
  | .and, _, .bool value | .or, _, .bool value => .ok (.bool value)
  | .and, _, .number _ _ => .error (.rightNotBool .and)
  | .or, _, .number _ _ => .error (.rightNotBool .or)
  | op, left, right => applyBinary op left right

/-- `evaluate`; `&&` and `||` do not evaluate a right operand they do not need. -/
def evaluate (store : Store) : Expr → Except Fault Value
  | .integer value =>
    if (value : Int) ≤ (signedRange 64).hi then .ok (.number .int value)
    else .ok (.number (.unsigned .w128) value)
  | .bool value => .ok (.bool value)
  | .identifier name =>
    match store (.whole name) with
    | some value => .ok value
    | none => .error (.undefinedVariable name)
  | .unary op operand =>
    match evaluate store operand with
    | .error fault => .error fault
    | .ok value => applyUnary op value
  | .binary left op right =>
    match evaluate store left with
    | .error fault => .error fault
    | .ok leftValue =>
      match decidedByLeft op leftValue with
      | some outcome => outcome
      | none =>
        match evaluate store right with
        | .error fault => .error fault
        | .ok rightValue => applyOperator op leftValue rightValue

/-- The operation of a compound assignment.  A variable's new operand is coerced to the
representation of its old value; a place's is not coerced at all. -/
def assignStep (target : Target) (op : ArithOp) (left right : Value) : Except Fault Value :=
  match target with
  | .whole _ =>
    match coerceLike right left with
    | .error fault => .error fault
    | .ok right => evaluateBinary (.arith op) left right
  | .part _ _ _ => evaluateBinary (.arith op) left right

/-- The value a compound assignment stores. -/
def evaluateCompound (store : Store) (statement : Compound) : Except Fault Value :=
  match evaluate store statement.value with
  | .error fault => .error fault
  | .ok right =>
    match statement.target, store statement.target with
    | .whole name, none => .error (.undefinedVariable name)
    | .part _ _ _, none => .error .invalidTarget
    | target, some left => assignStep target statement.op left right

end Disp.Arithmetic

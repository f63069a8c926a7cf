import Disp.Arithmetic.Operators
import Disp.Constants.Agreement

/-!
# Exactness of integer operations

The integer methods of the interpreter, and that every operation on two operands of one
representation has the exact result, a fault where it does not fit, the congruent or the nearest
value.  The remainder of the least `int` or `i128` by minus one is the exception: it is zero, but
the checked remainder has no result where the quotient overflows.
-/

namespace Disp.Arithmetic

open Disp.Constants Disp.Library.MachineInt

variable {kind : Kind} {op : ArithOp} {a b n : Int}

/-! ## The integer methods -/

inductive MethodOp
  | add
  | sub
  | mul
  deriving DecidableEq, Repr

def MethodOp.name : MethodOp → String
  | .add => "add"
  | .sub => "sub"
  | .mul => "mul"

def MethodOp.exact : MethodOp → Int → Int → Int
  | .add, a, b => a + b
  | .sub, a, b => a - b
  | .mul, a, b => a * b

/-- `wrapping_add` to `saturating_mul`. -/
structure Method where
  wrapping : Bool
  op : MethodOp
  deriving DecidableEq, Repr

def Method.name (method : Method) : String :=
  (if method.wrapping then "wrapping_" else "saturating_") ++ method.op.name

/-- The operation of a machine type. -/
def Method.compute (method : Method) (range : IntRange) (a b : Int) : Int :=
  if method.wrapping then range.wrap (method.op.exact a b)
  else range.saturate (method.op.exact a b)

/-- A signed operation is computed in `i128`, then masked and its sign restored, or clamped. -/
def Method.signed (method : Method) (width : Width) (a b : Int) : Int :=
  let raw := method.compute (signedRange 128) a b
  let range := signedRange width.bits
  if method.wrapping then
    if width = .w128 then raw
    else
      let masked := raw % 2 ^ width.bits
      if range.hi < masked then masked - 2 ^ width.bits else masked
  else max range.lo (min raw range.hi)

/-- An unsigned operation is computed in `u128`, then masked or cut off. -/
def Method.unsigned (method : Method) (width : Width) (a b : Int) : Int :=
  let raw := method.compute (unsignedRange 128) a b
  if method.wrapping then raw % 2 ^ width.bits else min raw (unsignedRange width.bits).hi

def integerMethod (method : Method) (left right : Value) : Except String Value :=
  match left, right with
  | .number .int a, .number .int b => .ok (.number .int (method.compute (signedRange 64) a b))
  | .number .uint a, .number .uint b =>
    .ok (.number .uint (method.compute (unsignedRange 64) a b))
  | .number (.signed width) a, .number (.signed other) b =>
    if width = other then .ok (.number (.signed width) (method.signed width a b))
    else .error s!"invalid operands for `{method.name}`"
  | .number (.unsigned width) a, .number (.unsigned other) b =>
    if width = other then .ok (.number (.unsigned width) (method.unsigned width a b))
    else .error s!"invalid operands for `{method.name}`"
  | _, _ => .error s!"invalid operands for `{method.name}`"

/-- The 128-bit intermediate loses nothing. -/
theorem integerMethod_eq (method : Method) (kind : Kind) (a b : Int) :
    integerMethod method (.number kind a) (.number kind b) =
      .ok (.number kind (method.compute kind.range a b)) := by
  rcases kind with _ | _ | width | width
  · rfl
  · rfl
  · have hsigned : method.signed width a b = method.compute (signedRange width.bits) a b := by
      unfold Method.signed Method.compute
      generalize method.op.exact a b = n
      cases method.wrapping <;> cases width <;>
        simp [IntRange.wrap, IntRange.saturate, signedRange, Width.bits] <;> omega
    simp [integerMethod, hsigned, Kind.range]
  · have hunsigned : method.unsigned width a b = method.compute (unsignedRange width.bits) a b := by
      unfold Method.unsigned Method.compute
      generalize method.op.exact a b = n
      cases method.wrapping <;> cases width <;>
        simp [IntRange.wrap, IntRange.saturate, unsignedRange, Width.bits] <;> omega
    simp [integerMethod, hunsigned, Kind.range]

/-! ## Checked operations -/

theorem numberOf_eq_ok_iff :
    numberOf (checkedArith kind op a b) = .ok n ↔
      checkedArith kind op a b = .ok (.number kind n) := by
  cases h : checkedArith kind op a b with
  | error fault => simp [numberOf]
  | ok value =>
    obtain ⟨m, -, rfl⟩ := number_of_checkedArith h
    simp [numberOf]

theorem operation_inRange_iff (h : exactArith op a b = some n) :
    (Requirement.operation kind op a b).InRange ↔
      n ∈ kind.range ∧ ¬(op = .remainder ∧ a = kind.computed.lo ∧ b = -1) := by
  cases op <;> simp_all [exactArith, Requirement.InRange]

/-- The checked operations are exact, but for the remainder by minus one of the least value of
the type they are computed in. -/
theorem checkedArith_eq_ok_number_iff :
    checkedArith kind op a b = .ok (.number kind n) ↔
      exactArith op a b = some n ∧ n ∈ kind.range ∧
        ¬(op = .remainder ∧ a = kind.computed.lo ∧ b = -1) := by
  rw [← numberOf_eq_ok_iff, checkedArith_eq_ok_iff]
  exact and_congr_right fun h => operation_inRange_iff h

/-! ## All operations -/

def Kind.bits : Kind → Nat
  | .int | .uint => 64
  | .signed width | .unsigned width => width.bits

def Kind.isSigned : Kind → Bool
  | .int | .signed _ => true
  | .uint | .unsigned _ => false

theorem Kind.zero_mem (kind : Kind) : 0 ∈ kind.range := by
  cases kind with
  | int => decide
  | uint => decide
  | signed width | unsigned width => cases width <;> decide

theorem Kind.size_range (kind : Kind) : kind.range.hi - kind.range.lo + 1 = 2 ^ kind.bits := by
  rcases kind with _ | _ | width | width
  · decide
  · decide
  · cases width <;> decide
  · cases width <;> decide

/-- Every operation on `a` and `b` is exact: a checked one has the exact result if that is
representable and faults otherwise, a wrapping one has the only congruent value and a saturating
one the nearest value. -/
structure OperationsExact (kind : Kind) (a b : Int) : Prop where
  checked : ∀ op value, evaluateBinary (.arith op) (.number kind a) (.number kind b) = .ok value ↔
    ∃ n ∈ kind.range, exactArith op a b = some n ∧ value = .number kind n
  negation : kind.isSigned → ∀ value, applyUnary .negate (.number kind a) = .ok value ↔
    -a ∈ kind.range ∧ value = .number kind (-a)
  wrapping : ∀ op, ∃ n ∈ kind.range,
    integerMethod ⟨true, op⟩ (.number kind a) (.number kind b) = .ok (.number kind n) ∧
      ∀ m ∈ kind.range, m % 2 ^ kind.bits = op.exact a b % 2 ^ kind.bits ↔ m = n
  saturating : ∀ op, ∃ n ∈ kind.range,
    integerMethod ⟨false, op⟩ (.number kind a) (.number kind b) = .ok (.number kind n) ∧
      ∀ m ∈ kind.range, m ≠ n → (n - op.exact a b).natAbs < (m - op.exact a b).natAbs

theorem negate_eq_ok_iff (h : kind.isSigned) (value : Value) :
    applyUnary .negate (.number kind a) = .ok value ↔
      -a ∈ kind.range ∧ value = .number kind (-a) := by
  rcases kind with _ | _ | width | width
  · by_cases hmem : -a ∈ Kind.int.range <;> simp [applyUnary, hmem, eq_comm]
  · cases h
  · by_cases hmem : -a ∈ (Kind.signed width).range <;> simp [applyUnary, hmem, eq_comm]
  · cases h

theorem evaluateBinary_exact_iff (hrem : ¬(a = kind.computed.lo ∧ b = -1)) (op : ArithOp)
    (value : Value) :
    evaluateBinary (.arith op) (.number kind a) (.number kind b) = .ok value ↔
      ∃ n ∈ kind.range, exactArith op a b = some n ∧ value = .number kind n := by
  simp only [evaluateBinary, if_true]
  constructor
  · intro h
    obtain ⟨n, -, rfl⟩ := number_of_checkedArith h
    obtain ⟨hexact, hmem, -⟩ := checkedArith_eq_ok_number_iff.mp h
    exact ⟨n, hmem, hexact, rfl⟩
  · rintro ⟨n, hmem, hexact, rfl⟩
    exact checkedArith_eq_ok_number_iff.mpr ⟨hexact, hmem, fun h => hrem h.2⟩

/-- The type an operation is computed in has its least value in the range only of `int` and of
128 bits, and minus one only where it is signed. -/
theorem least_computed_iff (ha : a ∈ kind.range) (hb : b ∈ kind.range) :
    (a = kind.computed.lo ∧ b = -1) ↔
      (kind = .int ∨ kind = .signed .w128) ∧ a = kind.range.lo ∧ b = -1 := by
  rcases kind with _ | _ | width | width
  · simp [Kind.computed, Kind.range]
  · simp only [Kind.range, unsignedRange, mem_def] at hb
    simp
    omega
  · cases width <;> simp [Kind.computed, Kind.range, signedRange, Width.bits, mem_def] at ha ⊢ <;>
      omega
  · simp only [Kind.range, unsignedRange, mem_def] at hb
    simp
    omega

theorem operations_exact_iff (ha : a ∈ kind.range) (hb : b ∈ kind.range) :
    OperationsExact kind a b ↔
      ¬((kind = .int ∨ kind = .signed .w128) ∧ a = kind.range.lo ∧ b = -1) := by
  rw [← least_computed_iff ha hb]
  constructor
  · -- the remainder is zero, which every range holds, but its quotient overflows
    rintro h ⟨rfl, rfl⟩
    have hexact : exactArith .remainder kind.computed.lo (-1) = some 0 := by simp [exactArith]
    have hok := (h.checked .remainder _).mpr ⟨0, kind.zero_mem, hexact, rfl⟩
    simp only [evaluateBinary, if_true] at hok
    exact (checkedArith_eq_ok_number_iff.mp hok).2.2 ⟨rfl, rfl, rfl⟩
  · intro hrem
    have hle : kind.range.lo ≤ kind.range.hi := kind.zero_mem.1.trans kind.zero_mem.2
    refine ⟨evaluateBinary_exact_iff hrem, fun h => negate_eq_ok_iff h, fun op => ?_, fun op => ?_⟩
    · refine ⟨_, IntRange.wrap_mem hle _, integerMethod_eq ⟨true, op⟩ kind a b, fun m hm => ?_⟩
      rw [← kind.size_range]
      exact IntRange.eq_wrap_iff hm
    · exact ⟨_, IntRange.saturate_mem hle _, integerMethod_eq ⟨false, op⟩ kind a b,
        fun m hm => IntRange.saturate_nearest hm⟩

theorem operations_exact_i8 :
    (-128 ∈ (Kind.signed .w8).range ∧ -1 ∈ (Kind.signed .w8).range) ∧
      OperationsExact (.signed .w8) (-128) (-1) :=
  ⟨by decide, (operations_exact_iff (by decide) (by decide)).mpr (by decide)⟩

/-- The remainder of the least `int` by minus one is zero, but the interpreter faults. -/
theorem least_remainder_faults :
    evaluateBinary (.arith .remainder) (.number .int (-2 ^ 63)) (.number .int (-1)) =
        .error (.overflow .int .remainder) ∧
      exactArith .remainder (-2 ^ 63) (-1) = some 0 ∧ 0 ∈ Kind.int.range := by
  decide

end Disp.Arithmetic

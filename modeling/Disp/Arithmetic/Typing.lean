import Disp.Arithmetic.Operators

/-!
# Types of operands

Integer and Boolean expressions have integer types and `bool`, and an accepted operator
has operands of one of the two sorts.  Its result at run time is of the sort that the
checker says, with every integer in the range of its representation.
-/

namespace Disp.Arithmetic

open Disp.Library.MachineInt Disp.TypeChecker

variable {left right operand ty : Ty} {value : Value}

/-- The value has the static type exactly. -/
def Scalar.Admits : Scalar → Value → Prop
  | .number kind, .number kind' n => kind' = kind ∧ n ∈ kind.range
  | .bool, .bool _ => True
  | _, _ => False

/-- The value is of the type's sort: an integer in its range, or a Boolean. -/
def HasSort (ty : Ty) : Value → Prop
  | .number kind n => ty.isInteger = true ∧ n ∈ kind.range
  | .bool _ => ty = .bool

theorem Scalar.Admits.hasSort {scalar : Scalar} (h : scalar.Admits value) :
    HasSort scalar.ty value := by
  cases scalar with
  | bool => cases value with
    | number kind n => exact False.elim h
    | bool x => rfl
  | number kind => cases value with
    | bool x => exact False.elim h
    | number kind' n =>
      obtain ⟨rfl, hn⟩ := h
      exact ⟨by cases kind' <;> rfl, hn⟩

/-! ## Accepted operators -/

/-- The types of integer and Boolean expressions. -/
def IsOperand (ty : Ty) : Prop := ty = .bool ∨ ty.isInteger = true

theorem Scalar.isOperand (scalar : Scalar) : IsOperand scalar.ty := by
  cases scalar with
  | bool => exact .inl rfl
  | number kind => exact .inr (by cases kind <;> rfl)

theorem integer_not_float (h : ty.isInteger = true) :
    isFloatLiteral ty = false ∧ isFloat ty = false ∧ ty.isNumeric = true ∧ ty ≠ .bool := by
  unfold Ty.isInteger at h
  split at h
  all_goals first | exact ⟨rfl, rfl, rfl, by simp⟩ | cases h

theorem integer_incompatible (h : ty.isInteger = true) :
    typesCompatible ty .bool = false ∧ typesCompatible .bool ty = false := by
  unfold Ty.isInteger at h
  split at h
  all_goals
    first
    | exact absurd h Bool.false_ne_true
    | simp [typesCompatible, scalarCompatible, Con.comparesArguments]

theorem checkUnary_sorts {op : UnaryOperator} (h : checkUnary op operand = .ok ty)
    (hoperand : IsOperand operand) :
    (op = .not ∧ operand = .bool ∧ ty = .bool) ∨
      (op = .negate ∧ operand.isInteger = true ∧ ty.isInteger = true) := by
  cases op with
  | not =>
    simp only [checkUnary] at h
    split_ifs at h with hbool
    exact .inl ⟨rfl, hbool, (Except.ok.inj h).symm⟩
  | negate =>
    obtain rfl | hinteger := hoperand
    · cases h
    · simp only [checkUnary, (integer_not_float hinteger).2.2.1, if_true] at h
      refine .inr ⟨rfl, hinteger, ?_⟩
      split at h
      · split_ifs at h
        cases h
        rfl
      · cases h
        exact hinteger

theorem alignLiterals_integers (hleft : left.isInteger = true) (hright : right.isInteger = true) :
    (alignLiterals left right).1.isInteger = true ∧
      (alignLiterals left right).2.isInteger = true := by
  unfold alignLiterals
  simp only [(integer_not_float hleft).1, (integer_not_float hright).1, Bool.false_and,
    Bool.false_eq_true, if_false]
  split_ifs
  · exact ⟨rfl, rfl⟩
  · exact ⟨hright, hright⟩
  · exact ⟨hleft, hleft⟩
  · exact ⟨hleft, hright⟩

/-- The operators of `check_binary` by the sort of their operands. -/
def BinaryOperator.ofBools : BinaryOperator → Bool
  | .equal | .notEqual | .and | .or => true
  | .arith _ | .compare _ => false

def BinaryOperator.ofIntegers : BinaryOperator → Bool
  | .and | .or => false
  | _ => true

def BinaryOperator.isArith : BinaryOperator → Bool
  | .arith _ => true
  | _ => false

theorem checkBinary_sorts {op : BinaryOperator} (h : checkBinary op left right = .ok ty)
    (hleft : IsOperand left) (hright : IsOperand right) :
    (op.ofBools = true ∧ left = .bool ∧ right = .bool ∧ ty = .bool) ∨
      (op.ofIntegers = true ∧ left.isInteger = true ∧ right.isInteger = true ∧
        if op.isArith then ty.isInteger = true else ty = .bool) := by
  obtain rfl | hleft := hleft
  · obtain rfl | hright := hright
    · refine .inl ?_
      cases op with
      | arith op | compare op => cases h
      | equal | notEqual | and | or => exact ⟨rfl, rfl, rfl, (Except.ok.inj h).symm⟩
    · have hincompatible := integer_incompatible hright
      simp [checkBinary, alignLiterals, isIntLiteral, isFloatLiteral, isFloat, Ty.isInteger,
        hincompatible, requireSame, bind, Except.bind] at h
  · obtain rfl | hright := hright
    · have hincompatible := integer_incompatible hleft
      simp [checkBinary, alignLiterals, isIntLiteral, isFloatLiteral, isFloat, Ty.isInteger,
        hincompatible, requireSame, bind, Except.bind] at h
    · refine .inr ?_
      obtain ⟨hl, hr⟩ := alignLiterals_integers hleft hright
      generalize halign : alignLiterals left right = aligned at hl hr
      simp only [checkBinary, halign] at h
      generalize hoperand : (if (!typesCompatible aligned.1 aligned.2 &&
        typesCompatible aligned.2 aligned.1) = true then aligned.2 else aligned.1) = operand at h
      have hinteger : operand.isInteger = true := by
        rw [← hoperand]
        split_ifs
        · exact hr
        · exact hl
      have hne := (integer_not_float hinteger).2.2.2
      cases hsame : requireSame operand aligned.2 with
      | error _ => rw [hsame] at h; cases h
      | ok _ =>
        rw [hsame] at h
        cases op with
        | arith op =>
          simp only [bind, Except.bind, (integer_not_float hinteger).2.2.1, if_true,
            Except.ok.injEq] at h
          exact ⟨rfl, hleft, hright, h ▸ hinteger⟩
        | compare op =>
          simp only [bind, Except.bind, (integer_not_float hinteger).2.2.1, if_true,
            Except.ok.injEq] at h
          exact ⟨rfl, hleft, hright, h.symm⟩
        | equal | notEqual =>
          simp only [bind, Except.bind] at h
          split_ifs at h
          exact ⟨rfl, hleft, hright, (Except.ok.inj h).symm⟩
        | and | or => simp [bind, Except.bind, hne] at h

theorem isOperand_of_checkUnary {op : UnaryOperator} (h : checkUnary op operand = .ok ty)
    (hoperand : IsOperand operand) : IsOperand ty := by
  obtain ⟨-, -, hty⟩ | ⟨-, -, hty⟩ := checkUnary_sorts h hoperand
  · exact .inl hty
  · exact .inr hty

theorem isOperand_of_checkBinary {op : BinaryOperator} (h : checkBinary op left right = .ok ty)
    (hleft : IsOperand left) (hright : IsOperand right) : IsOperand ty := by
  obtain ⟨-, -, -, hty⟩ | ⟨-, -, -, hty⟩ := checkBinary_sorts h hleft hright
  · exact .inl hty
  · split_ifs at hty
    · exact .inr hty
    · exact .inl hty

/-! ## Results -/

theorem applyUnary_sort {op : UnaryOperator} (h : checkUnary op operand = .ok ty)
    (hoperand : IsOperand operand) (hvalue : HasSort operand value) :
    (Application.unary op value).Formed ∧
      ∀ result, applyUnary op value = .ok result → HasSort ty result := by
  obtain ⟨rfl, rfl, rfl⟩ | ⟨rfl, hinteger, hty⟩ := checkUnary_sorts h hoperand
  · cases value with
    | number kind n => cases hvalue.1
    | bool x =>
      refine ⟨trivial, ?_⟩
      rintro _ ⟨⟩
      rfl
  · cases value with
    | bool x => exact absurd hvalue (integer_not_float hinteger).2.2.2
    | number kind n =>
      refine ⟨trivial, fun result hresult => ?_⟩
      have hrange := hvalue.2
      unfold applyUnary at hresult
      split at hresult
      · split_ifs at hresult with hmem
        cases hresult
        exact ⟨hty, hmem⟩
      · split_ifs at hresult with hmem
        cases hresult
        exact ⟨hty, hmem⟩
      · rename_i n' heq
        cases heq
        split_ifs at hresult with hle
        cases hresult
        refine ⟨hty, ?_⟩
        simp only [Kind.range, unsignedRange, signedRange, Width.bits, mem_def] at hrange ⊢
        omega
      · rename_i heq
        cases heq
      · cases hresult

theorem applyBinary_eq_ok {op : BinaryOperator} {left right result : Value}
    (h : applyBinary op left right = .ok result) :
    ∃ left' right', evaluateBinary op left' right' = .ok result := by
  rw [applyBinary] at h
  split at h
  · cases h
  · exact ⟨_, _, h⟩

theorem number_of_evaluateBinary {op : ArithOp} {left right result : Value}
    (h : evaluateBinary (.arith op) left right = .ok result) :
    ∃ kind, ∃ k ∈ kind.range, result = .number kind k := by
  simp only [evaluateBinary] at h
  split at h
  · split_ifs at h
    exact ⟨_, number_of_checkedArith h⟩
  · cases h

theorem bool_of_evaluateBinary {op : BinaryOperator} {left right result : Value}
    (hop : ∀ arith, op ≠ .arith arith) (h : evaluateBinary op left right = .ok result) :
    ∃ x, result = .bool x := by
  cases op with
  | arith op => exact absurd rfl (hop op)
  | equal | notEqual =>
    cases h
    exact ⟨_, rfl⟩
  | compare op =>
    simp only [evaluateBinary] at h
    split at h
    · split_ifs at h
      cases h
      exact ⟨_, rfl⟩
    · cases h
  | and | or => cases h

theorem step_sort {op : BinaryOperator} {leftValue rightValue : Value}
    (h : checkBinary op left right = .ok ty) (hleft : IsOperand left) (hright : IsOperand right)
    (hl : HasSort left leftValue) (hr : HasSort right rightValue) (literal : Bool) :
    (Application.binary op literal leftValue rightValue).Formed ∧
      ∀ result, step op leftValue rightValue = .ok result → HasSort ty result := by
  obtain ⟨hop, rfl, rfl, rfl⟩ | ⟨hop, hl', hr', hty⟩ := checkBinary_sorts h hleft hright
  · cases leftValue with
    | number a n => cases hl.1
    | bool x =>
      cases rightValue with
      | number b m => cases hr.1
      | bool y =>
        cases op with
        | arith op | compare op => cases hop
        | equal | notEqual | and | or =>
          refine ⟨trivial, ?_⟩
          cases x <;> rintro _ ⟨⟩ <;> rfl
  · cases leftValue with
    | bool x => exact absurd hl (integer_not_float hl').2.2.2
    | number a n =>
      cases rightValue with
      | bool y => exact absurd hr (integer_not_float hr').2.2.2
      | number b m =>
        cases op with
        | and | or => cases hop
        | arith op =>
          refine ⟨⟨hl.2, hr.2⟩, fun result hresult => ?_⟩
          change applyBinary (.arith op) (.number a n) (.number b m) = .ok result at hresult
          obtain ⟨_, _, heval⟩ := applyBinary_eq_ok hresult
          obtain ⟨kind, k, hk, rfl⟩ := number_of_evaluateBinary heval
          exact ⟨hty, hk⟩
        | equal | notEqual | compare op =>
          refine ⟨⟨hl.2, hr.2⟩, fun result hresult => ?_⟩
          change applyBinary _ (.number a n) (.number b m) = .ok result at hresult
          obtain ⟨_, _, heval⟩ := applyBinary_eq_ok hresult
          obtain ⟨x, rfl⟩ := bool_of_evaluateBinary (by simp) heval
          exact hty

/-- Only `&&` and `||` are decided by their left operand, and then by a Boolean. -/
theorem decidedByLeft_sort {op : BinaryOperator} {outcome : Except Fault Value}
    (h : checkBinary op left right = .ok ty) (hleft : IsOperand left) (hright : IsOperand right)
    (hvalue : HasSort left value) (hdec : decidedByLeft op value = some outcome) :
    ∃ x, outcome = .ok (.bool x) ∧ ty = .bool := by
  obtain ⟨-, rfl, -, rfl⟩ | ⟨hop, -, -, -⟩ := checkBinary_sorts h hleft hright
  · cases value with
    | number kind n => cases hvalue.1
    | bool x => cases op <;> cases x <;> cases hdec <;> exact ⟨_, rfl, rfl⟩
  · cases op with
    | and | or => cases hop
    | _ => cases value <;> cases hdec

/-! ## Compound assignment -/

theorem checkCompound_sorts {context : Context} {statement : Compound}
    (h : checkCompound context statement = .ok ()) :
    ∃ scalar ty, context statement.target = some scalar ∧
      checkExpression context statement.value = .ok ty ∧
      (IsOperand ty → scalar.ty.isInteger = true ∧ ty.isInteger = true) := by
  simp only [checkCompound] at h
  split at h
  case h_1 | h_3 => cases h
  case h_2 scalar htarget hscalar =>
    refine ⟨scalar, ?_⟩
    cases hval : checkExpression context statement.value with
    | error _ => simp [hval, bind, Except.bind] at h
    | ok ty =>
      refine ⟨ty, hscalar, rfl, fun hty => ?_⟩
      simp only [hval, requireSame, bind, Except.bind] at h
      split_ifs at h with hcompatible hnumeric
      have hscalarInteger : scalar.ty.isInteger = true := by
        obtain hbool | hinteger := scalar.isOperand
        · rw [hbool] at hnumeric
          cases hnumeric
        · exact hinteger
      refine ⟨hscalarInteger, hty.resolve_left ?_⟩
      rintro rfl
      rw [(integer_incompatible hscalarInteger).1] at hcompatible
      cases hcompatible
  case h_4 scalar htarget hscalar =>
    refine ⟨scalar, ?_⟩
    cases hval : checkExpression context statement.value with
    | error _ => simp [hval, bind, Except.bind] at h
    | ok ty =>
      refine ⟨ty, hscalar, rfl, fun hty => ?_⟩
      cases hbinary : checkBinary (.arith statement.op) scalar.ty ty with
      | error _ => simp [hval, hbinary, bind, Except.bind] at h
      | ok result =>
        obtain ⟨hop, -⟩ | ⟨-, hinteger⟩ := checkBinary_sorts hbinary scalar.isOperand hty
        · cases hop
        · exact ⟨hinteger.1, hinteger.2.1⟩

theorem assign_formed (target : Target) (op : ArithOp) (literal : Bool)
    {leftValue rightValue : Value}
    (hl : HasSort left leftValue) (hr : HasSort right rightValue) (hleft : left.isInteger = true)
    (hright : right.isInteger = true) :
    (Application.assign target op literal leftValue rightValue).Formed := by
  cases leftValue with
  | bool x => exact absurd hl (integer_not_float hleft).2.2.2
  | number a n =>
    cases rightValue with
    | bool y => exact absurd hr (integer_not_float hright).2.2.2
    | number b m => exact ⟨hl.2, hr.2⟩

end Disp.Arithmetic

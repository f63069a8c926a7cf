import Disp.Arithmetic.Typing

/-!
# Arithmetic type safety

The operators that one evaluation reaches, in the order in which it reaches them, with the
operands they get there.  In storage that has the static types, evaluation of an accepted
expression is type-safe exactly if the operands of each of them suit it, and so is a
compound assignment.
-/

namespace Disp.Arithmetic

open Disp.Library.MachineInt Disp.TypeChecker

variable {context : Context} {store : Store}

/-- An integer literal, under any number of minus signs. -/
def Expr.isLiteral : Expr → Bool
  | .integer _ => true
  | .unary .negate operand => operand.isLiteral
  | _ => false

/-- The applications that evaluation reaches; a right operand that the left one makes
unnecessary is not evaluated, and nothing is after a fault. -/
def reached (store : Store) : Expr → List Application
  | .integer _ | .bool _ | .identifier _ => []
  | .unary op operand =>
    reached store operand ++
      match evaluate store operand with
      | .error _ => []
      | .ok value => [.unary op value]
  | .binary left op right =>
    reached store left ++
      match evaluate store left with
      | .error _ => []
      | .ok leftValue =>
        match decidedByLeft op leftValue with
        | some _ => []
        | none =>
          reached store right ++
            match evaluate store right with
            | .error _ => []
            | .ok rightValue => [.binary op right.isLiteral leftValue rightValue]

def reachedCompound (store : Store) (statement : Compound) : List Application :=
  reached store statement.value ++
    match evaluate store statement.value, store statement.target with
    | .ok right, some left =>
      [.assign statement.target statement.op statement.value.isLiteral left right]
    | _, _ => []

/-! ## Type-safe runs -/

/-- Storage whose values have their static types. -/
def StoreTyped (context : Context) (store : Store) : Prop :=
  ∀ target scalar, context target = some scalar →
    ∃ value, store target = some value ∧ scalar.Admits value

/-- A run is type-safe: its fault is that of an application it reaches, an overflow, a
zero divisor or an out-of-range literal, and every equality it reaches is
decided on the integers. -/
structure RunSound (outcome : Except Fault Value) (applications : List Application) : Prop where
  fault : ∀ fault, outcome = .error fault →
    (∃ application ∈ applications, application.outcome = .error fault) ∧
      ∀ application ∈ applications, application.outcome = .error fault →
        fault.Permitted application.literal
  decides : ∀ application ∈ applications, ∀ value, application.outcome = .ok value →
    application.Decides value

def EvaluationSound (store : Store) (e : Expr) : Prop :=
  RunSound (evaluate store e) (reached store e)

def CompoundSound (store : Store) (statement : Compound) : Prop :=
  RunSound (evaluateCompound store statement) (reachedCompound store statement)

/-- The applications account for the outcome: their operands are those of accepted
operators, and the run faults exactly where one of them does. -/
structure Accounts (outcome : Except Fault Value) (applications : List Application) : Prop where
  formed : ∀ application ∈ applications, application.Formed
  fault : ∀ fault, outcome = .error fault ↔
    ∃ application ∈ applications, application.outcome = .error fault

theorem Accounts.runSound_iff {outcome : Except Fault Value} {applications : List Application}
    (h : Accounts outcome applications) :
    RunSound outcome applications ↔ ∀ application ∈ applications, application.Matched := by
  constructor
  · intro hsound application hmem
    rw [← Application.sound_iff_matched (h.formed application hmem)]
    refine ⟨fun fault hfault => ?_, hsound.decides application hmem⟩
    exact (hsound.fault fault ((h.fault fault).mpr ⟨application, hmem, hfault⟩)).2 application hmem
      hfault
  · intro hmatched
    have hsound (application) (hmem : application ∈ applications) : application.Sound :=
      (Application.sound_iff_matched (h.formed application hmem)).mpr (hmatched application hmem)
    refine ⟨fun fault hfault => ⟨(h.fault fault).mp hfault, fun application hmem => ?_⟩,
      fun application hmem => (hsound application hmem).decides⟩
    exact (hsound application hmem).fault fault

theorem Accounts.nil {value : Value} : Accounts (.ok value) [] := ⟨by simp, by simp⟩

/-- The operand's fault ends the run. -/
theorem Accounts.stop {fault : Fault} {applications : List Application}
    (h : Accounts (.error fault) applications) :
    Accounts (.error fault) (applications ++ []) := by
  rwa [List.append_nil]

/-- After an operand without a fault the run goes on. -/
theorem Accounts.append {value : Value} {outcome : Except Fault Value}
    {first rest : List Application} (hfirst : Accounts (.ok value) first)
    (hrest : Accounts outcome rest) : Accounts outcome (first ++ rest) where
  formed application hmem := by
    obtain hmem | hmem := List.mem_append.mp hmem
    · exact hfirst.formed application hmem
    · exact hrest.formed application hmem
  fault fault := by
    rw [hrest.fault]
    have hnone := (hfirst.fault fault).not.mp nofun
    simp only [List.mem_append]
    exact ⟨fun ⟨application, hmem, hfault⟩ => ⟨application, .inr hmem, hfault⟩,
      fun ⟨application, hmem, hfault⟩ => hmem.elim
        (fun hmem => absurd ⟨application, hmem, hfault⟩ hnone)
        fun hmem => ⟨application, hmem, hfault⟩⟩

theorem Accounts.single {application : Application} (h : application.Formed) :
    Accounts application.outcome [application] := by
  refine ⟨by simpa using h, fun fault => by simp⟩

/-- A literal is held as an `Int` where it fits, and as a `u128` otherwise. -/
theorem evaluate_integer (store : Store) (literal : Fin (2 ^ 128)) :
    ∃ value, evaluate store (.integer literal) = .ok value ∧
      HasSort (.intLiteral literal) value := by
  rw [evaluate]
  split
  · rename_i hle
    refine ⟨_, rfl, rfl, ?_⟩
    simp only [Kind.range, signedRange, mem_def] at hle ⊢
    omega
  · refine ⟨_, rfl, rfl, ?_⟩
    simp only [Kind.range, unsignedRange, Width.bits, mem_def]
    omega

theorem hasSort_of_error {ty : Ty} {fault : Fault} (value : Value)
    (h : (.error fault : Except Fault Value) = .ok value) : HasSort ty value := by
  cases h

/-- Evaluation of an accepted expression: the operators it reaches account for its outcome,
and its value is of the type's sort. -/
theorem evaluate_accounts (hstore : StoreTyped context store) (e : Expr) {ty : Ty}
    (hcheck : checkExpression context e = .ok ty) :
    IsOperand ty ∧ Accounts (evaluate store e) (reached store e) ∧
      ∀ value, evaluate store e = .ok value → HasSort ty value := by
  induction e generalizing ty with
  | integer literal =>
    cases hcheck
    obtain ⟨value, hval, hsort⟩ := evaluate_integer store literal
    rw [hval]
    refine ⟨.inr rfl, .nil, ?_⟩
    rintro _ ⟨⟩
    exact hsort
  | bool value =>
    cases hcheck
    refine ⟨.inl rfl, .nil, ?_⟩
    rintro _ ⟨⟩
    rfl
  | identifier name =>
    simp only [checkExpression] at hcheck
    split at hcheck
    · rename_i scalar hscalar
      cases hcheck
      obtain ⟨value, hval, hadmits⟩ := hstore _ _ hscalar
      simp only [evaluate, hval]
      refine ⟨scalar.isOperand, .nil, ?_⟩
      rintro _ ⟨⟩
      exact hadmits.hasSort
    · cases hcheck
  | unary op operand ih =>
    cases hoperand : checkExpression context operand with
    | error _ => simp [checkExpression, hoperand, bind, Except.bind] at hcheck
    | ok operandTy =>
      replace hcheck : checkUnary op operandTy = .ok ty := by
        simpa [checkExpression, hoperand, bind, Except.bind] using hcheck
      obtain ⟨hop, haccounts, hsort⟩ := ih hoperand
      refine ⟨isOperand_of_checkUnary hcheck hop, ?_⟩
      simp only [evaluate, reached]
      cases hval : evaluate store operand with
      | error fault => exact ⟨(hval ▸ haccounts).stop, hasSort_of_error⟩
      | ok value =>
        obtain ⟨hformed, hres⟩ := applyUnary_sort hcheck hop (hsort value hval)
        exact ⟨(hval ▸ haccounts).append (.single hformed), hres⟩
  | binary left op right ihl ihr =>
    cases hleft : checkExpression context left with
    | error _ => simp [checkExpression, hleft, bind, Except.bind] at hcheck
    | ok leftTy =>
      cases hright : checkExpression context right with
      | error _ => simp [checkExpression, hleft, hright, bind, Except.bind] at hcheck
      | ok rightTy =>
        replace hcheck : checkBinary op leftTy rightTy = .ok ty := by
          simpa [checkExpression, hleft, hright, bind, Except.bind] using hcheck
        obtain ⟨hopl, hacc, hsort⟩ := ihl hleft
        obtain ⟨hopr, haccr, hsortr⟩ := ihr hright
        refine ⟨isOperand_of_checkBinary hcheck hopl hopr, ?_⟩
        simp only [evaluate, reached]
        cases hl : evaluate store left with
        | error fault => exact ⟨(hl ▸ hacc).stop, hasSort_of_error⟩
        | ok l =>
          rw [hl] at hacc
          cases hdec : decidedByLeft op l with
          | some outcome =>
            obtain ⟨x, rfl, rfl⟩ := decidedByLeft_sort hcheck hopl hopr (hsort l hl) hdec
            simp only [hdec]
            refine ⟨hacc.append .nil, ?_⟩
            rintro _ ⟨⟩
            rfl
          | none =>
            simp only [hdec]
            cases hr : evaluate store right with
            | error fault => exact ⟨hacc.append (hr ▸ haccr).stop, hasSort_of_error⟩
            | ok r =>
              obtain ⟨hformed, hres⟩ :=
                step_sort hcheck hopl hopr (hsort l hl) (hsortr r hr) right.isLiteral
              have hstep : step op l r = applyOperator op l r := by simp [step, hdec]
              have happly := hacc.append ((hr ▸ haccr).append (.single hformed))
              simp only [Application.outcome, hstep] at happly hres
              exact ⟨happly, hres⟩

theorem evaluateCompound_accounts (hstore : StoreTyped context store) {statement : Compound}
    (hcheck : checkCompound context statement = .ok ()) :
    Accounts (evaluateCompound store statement) (reachedCompound store statement) := by
  obtain ⟨scalar, ty, hscalar, hty, hsorts⟩ := checkCompound_sorts hcheck
  obtain ⟨left, hleft, hadmits⟩ := hstore _ _ hscalar
  obtain ⟨hop, haccounts, hsort⟩ := evaluate_accounts hstore statement.value hty
  simp only [evaluateCompound, reachedCompound, hleft]
  cases hr : evaluate store statement.value with
  | error fault => exact (hr ▸ haccounts).stop
  | ok right =>
    have hinteger := hsorts hop
    have hformed := assign_formed statement.target statement.op statement.value.isLiteral
      hadmits.hasSort (hsort right hr) hinteger.1 hinteger.2
    have hassign := (hr ▸ haccounts).append (.single hformed)
    cases htarget : statement.target with
    | whole name | part root first rest =>
      rw [htarget] at hassign
      exact hassign

/-! ## Type safety -/

/-- In storage of the static types, an accepted expression or compound assignment evaluates
without a type fault and with every equality decided on the integers exactly if the operands
suit each operator that this evaluation reaches. -/
theorem arithmetic_type_safe_iff (hstore : StoreTyped context store) :
    (∀ e ty, checkExpression context e = .ok ty →
      (EvaluationSound store e ↔ ∀ application ∈ reached store e, application.Matched)) ∧
      ∀ statement, checkCompound context statement = .ok () →
        (CompoundSound store statement ↔
          ∀ application ∈ reachedCompound store statement, application.Matched) :=
  ⟨fun e _ hcheck => (evaluate_accounts hstore e hcheck).2.1.runSound_iff,
    fun _ hcheck => (evaluateCompound_accounts hstore hcheck).runSound_iff⟩

/-- `x` and the field `s.f`, both of type `i32`. -/
def i32Context : Context
  | .whole "x" => some (.number (.signed .w32))
  | .part "s" (.field "f") [] => some (.number (.signed .w32))
  | _ => none

def i32Store : Store
  | .whole "x" => some (.number (.signed .w32) 1)
  | .part "s" (.field "f") [] => some (.number (.signed .w32) 1)
  | _ => none

theorem i32Store_typed : StoreTyped i32Context i32Store := by
  intro target scalar h
  unfold i32Context at h
  split at h
  all_goals cases h
  all_goals exact ⟨_, rfl, rfl, by decide⟩

/-- `x + 1` is type-safe, the literal being brought to `i32`, and so is
`false && 1 + x == 2`, where the addition is not reached. -/
theorem reached_operands_safe :
    EvaluationSound i32Store (.binary (.identifier "x") (.arith .add) (.integer 1)) ∧
      EvaluationSound i32Store (.binary (.bool false) .and
        (.binary (.binary (.integer 1) (.arith .add) (.identifier "x")) .equal (.integer 2))) := by
  refine ⟨((arithmetic_type_safe_iff i32Store_typed).1 _ (.signed 32) (by rfl)).mpr ?_,
    ((arithmetic_type_safe_iff i32Store_typed).1 _ .bool (by rfl)).mpr (List.forall_mem_nil _)⟩
  have hreached : reached i32Store (.binary (.identifier "x") (.arith .add) (.integer 1)) =
      [.binary (.arith .add) true (.number (.signed .w32) 1) (.number .int 1)] := rfl
  rw [hreached, List.forall_mem_singleton]
  exact .inl (show Together (.signed .w32) .int 1 by decide)

/-- A literal on the left is not brought to the type of the right operand, and the
operand of `s.f += 1` is not brought to the type of the field: the checker
accepts all three, `1 + x` and `s.f += 1` end in invalid operands, and `1 == x` is
false where `x` is one. -/
theorem literal_operands_not_coerced :
    StoreTyped i32Context i32Store ∧
      checkExpression i32Context (.binary (.integer 1) (.arith .add) (.identifier "x")) =
        .ok (.signed 32) ∧
      evaluate i32Store (.binary (.integer 1) (.arith .add) (.identifier "x")) =
        .error (.invalidOperands .add) ∧
      checkExpression i32Context (.binary (.integer 1) .equal (.identifier "x")) = .ok .bool ∧
      evaluate i32Store (.binary (.integer 1) .equal (.identifier "x")) = .ok (.bool false) ∧
      checkCompound i32Context ⟨.part "s" (.field "f") [], .add, .integer 1, by decide⟩ =
        .ok () ∧
      evaluateCompound i32Store ⟨.part "s" (.field "f") [], .add, .integer 1, by decide⟩ =
        .error (.invalidOperands .add) :=
  ⟨i32Store_typed, rfl, rfl, rfl, rfl, rfl, rfl⟩

end Disp.Arithmetic

import Disp.Constants.Meaning
import Disp.Library.Codec

/-!
# Compile-time evaluation and checked evaluation

Compile-time evaluation is exact on integers and rounds no float: whenever it has a value, that is
the one without types.  The checked evaluation has the exact value at its types precisely where
every operation stays in the range of its type.
-/

namespace Disp.Constants

open List

open Disp.Arithmetic (BinaryOperator CompareOp Fault Kind UnaryOperator applyUnary checkedArith)
open Disp.Library.Codec (bind_eq_ok)
open Disp.Library.MachineInt
open Disp.Library.Obligations
open Disp.Patterns (Pattern Registry checkPattern)
open Disp.TypeChecker

variable {a : Integer}

/-! ## Signs and magnitudes -/

namespace Integer

variable {b : Integer}

theorem toInt_positive (magnitude : Fin (2 ^ 128)) :
    (positive magnitude).toInt = magnitude.val := by
  simp [toInt, positive]

theorem toInt_normalized (negative : Bool) (magnitude : Fin (2 ^ 128)) :
    (normalized negative magnitude).toInt =
      if negative then -(magnitude.val : Int) else magnitude.val := by
  unfold toInt normalized
  by_cases hzero : magnitude.val = 0 <;> cases negative <;> simp [hzero]

theorem toInt_negate (n : Integer) : n.negate.toInt = -n.toInt := by
  rw [negate, toInt_normalized, toInt]
  cases n.negative <;> simp

theorem toInt_injective (h : a.toInt = b.toInt) : a = b := by
  obtain ⟨na, ma, ha⟩ := a
  obtain ⟨nb, mb, hb⟩ := b
  simp only [toInt] at h
  have hsign : na = nb := by
    cases na <;> cases nb <;> simp_all
  subst hsign
  have hmagnitude : ma = mb := by
    apply Fin.ext
    cases na <;> simp_all
  subst hmagnitude
  rfl

theorem toInt_inj : a.toInt = b.toInt ↔ a = b := ⟨toInt_injective, congrArg _⟩

theorem natAbs_toInt (n : Integer) : n.toInt.natAbs = n.magnitude.val := by
  unfold toInt
  cases n.negative <;> simp

/-- Every number whose magnitude is a `u128` is represented. -/
theorem exists_toInt_eq {n : Int} : (∃ c : Integer, c.toInt = n) ↔ n.natAbs < 2 ^ 128 := by
  constructor
  · rintro ⟨c, rfl⟩
    rw [natAbs_toInt]
    exact c.magnitude.isLt
  · intro h
    refine ⟨normalized (decide (n < 0)) ⟨n.natAbs, h⟩, ?_⟩
    rw [toInt_normalized]
    simp only [decide_eq_true_eq]
    split <;> omega

theorem normalized_eq_iff {negative : Bool} {magnitude : Fin (2 ^ 128)} :
    normalized negative magnitude = a ↔
      a.toInt = if negative then -(magnitude.val : Int) else magnitude.val := by
  rw [← toInt_inj, toInt_normalized, eq_comm]

theorem checked_eq_some_iff {negative : Bool} {m : Nat} :
    (checkedU128 m).map (normalized negative) = some a ↔
      a.toInt = if negative then -(m : Int) else m := by
  unfold checkedU128
  split
  · simp [normalized_eq_iff]
  · have hmagnitude := natAbs_toInt a
    have hlt := a.magnitude.isLt
    cases negative <;> simp <;> omega

theorem checkedAdd_eq_some_iff {c : Integer} :
    a.checkedAdd b = some c ↔ c.toInt = a.toInt + b.toInt := by
  unfold checkedAdd
  split
  · rename_i hsign
    rw [checked_eq_some_iff, toInt, toInt, toInt, ← hsign]
    cases a.negative <;> simp
    omega
  · split
    all_goals
      rw [Option.some_inj, normalized_eq_iff, toInt, toInt, toInt]
      simp only [difference]
      cases ha : a.negative <;> cases hb : b.negative <;> simp_all <;> omega

theorem compare_eq (a b : Integer) : a.compare b = compareOfLessAndEq a.toInt b.toInt := by
  have ha := a.normal
  have hb := b.normal
  unfold compare toInt compareOfLessAndEq
  cases hna : a.negative <;> cases hnb : b.negative <;> simp_all <;> grind

end Integer

theorem toInt_quotient (a b : Integer) :
    (Integer.normalized (a.negative != b.negative) (a.magnitude / b.magnitude)).toInt =
      a.toInt.tdiv b.toInt := by
  rw [Integer.toInt_normalized, Integer.toInt, Integer.toInt]
  cases a.negative <;> cases b.negative <;> simp

theorem toInt_rest (a b : Integer) :
    (Integer.normalized a.negative (a.magnitude % b.magnitude)).toInt = a.toInt.tmod b.toInt := by
  rw [Integer.toInt_normalized, Integer.toInt, Integer.toInt]
  have h := Int.tmod_eq_emod_of_nonneg (b := b.magnitude.val) (Int.natCast_nonneg a.magnitude.val)
  cases a.negative <;> cases b.negative <;> simp [h]

theorem toInt_eq_zero : a.toInt = 0 ↔ a.magnitude.val = 0 := by
  unfold Integer.toInt
  cases a.negative <;> simp

/-- The operations on signs and magnitudes are those on numbers, as long as the result has a
representation. -/
theorem evalArith_eq_ok_iff {op : ArithOp} {b c : Integer} :
    evalArith op a b = .ok c ↔ exactArith op a.toInt b.toInt = some c.toInt := by
  cases op with
  | add =>
    rw [exactArith, Option.some_inj, eq_comm (b := c.toInt), ← Integer.checkedAdd_eq_some_iff,
      evalArith]
    cases a.checkedAdd b <;> simp
  | subtract =>
    rw [exactArith, Option.some_inj, eq_comm (b := c.toInt), sub_eq_add_neg, ← Integer.toInt_negate,
      ← Integer.checkedAdd_eq_some_iff, evalArith]
    cases a.checkedAdd b.negate <;> simp
  | multiply =>
    have hproduct : a.toInt * b.toInt =
        if (a.negative != b.negative) then -((a.magnitude.val * b.magnitude.val : Nat) : Int)
        else (a.magnitude.val * b.magnitude.val : Nat) := by
      unfold Integer.toInt
      cases a.negative <;> cases b.negative <;> simp
    rw [exactArith, Option.some_inj, eq_comm (b := c.toInt), hproduct,
      ← Integer.checked_eq_some_iff, evalArith]
    cases checkedU128 (a.magnitude.val * b.magnitude.val) <;> simp
  | divide =>
    rw [evalArith, exactArith, ← toInt_quotient]
    by_cases hzero : b.magnitude.val = 0 <;> simp [hzero, toInt_eq_zero, Integer.toInt_inj]
  | remainder =>
    rw [evalArith, exactArith, ← toInt_rest]
    by_cases hzero : b.magnitude.val = 0 <;> simp [hzero, toInt_eq_zero, Integer.toInt_inj]

theorem exactArith_eq_none_iff {op : ArithOp} {m n : Int} :
    exactArith op m n = none ↔ (op = .divide ∨ op = .remainder) ∧ n = 0 := by
  cases op <;> simp [exactArith]

/-- There is no result exactly when there is no exact one or it has no representation. -/
theorem evalArith_eq_error_iff {op : ArithOp} {b : Integer} :
    (∃ error, evalArith op a b = .error error) ↔ (op = .divide ∨ op = .remainder) ∧ b.toInt = 0 ∨
      ∃ n, exactArith op a.toInt b.toInt = some n ∧ 2 ^ 128 ≤ n.natAbs := by
  have hok : (∃ error, evalArith op a b = .error error) ↔
      ¬∃ c : Integer, exactArith op a.toInt b.toInt = some c.toInt := by
    simp only [← evalArith_eq_ok_iff]
    cases evalArith op a b <;> simp
  rw [hok, ← exactArith_eq_none_iff (m := a.toInt)]
  cases exactArith op a.toInt b.toInt with
  | none => simp
  | some n =>
    simp only [Option.some_inj, reduceCtorEq, false_or, exists_eq_left']
    rw [← not_lt, ← Integer.exists_toInt_eq]
    simp only [eq_comm]

/-! ## Values -/

section Values

variable {F : Type} {n : Integer} {literal : Fin (2 ^ 128)}

mutual

/-- A compile-time value with the numbers that are meant. -/
def Value.meant : ConstValue F → Meant F
  | .number n => .number n.toInt
  | .float x => .float x
  | .string s => .string s
  | .character c => .character c
  | .bool b => .bool b
  | .array values => .array (meantAll values)
  | .struct name fields => .struct name (meantFields fields)

def meantAll : List (ConstValue F) → List (Meant F)
  | [] => []
  | value :: values => value.meant :: meantAll values

def meantFields : List (String × ConstValue F) → List (String × Meant F)
  | [] => []
  | (name, value) :: fields => (name, value.meant) :: meantFields fields

end

theorem lookup_meantFields (fields : List (String × ConstValue F)) (name : String) :
    (meantFields fields).lookup name = (fields.lookup name).map Value.meant := by
  induction fields with
  | nil => rfl
  | cons field fields ih =>
    obtain ⟨key, value⟩ := field
    simp only [meantFields, lookup_cons, ih]
    cases name == key <;> rfl

theorem toInt_eq_positive : n.toInt = literal.val ↔ n = Integer.positive literal := by
  rw [← Integer.toInt_positive, Integer.toInt_inj]

theorem toInt_eq_negative :
    n.toInt = -(literal.val : Int) ↔ n = Integer.normalized true literal := by
  have h : (Integer.normalized true literal).toInt = -(literal.val : Int) := by
    simp [Integer.toInt_normalized]
  rw [← h, Integer.toInt_inj]

mutual

/-- Patterns look at the numbers that are meant. -/
theorem patternMatches_meant (pattern : Pattern) (value : ConstValue F)
    (bindings : Bindings Integer F) :
    patternMatches (fun literal => (literal.val : Int)) (fun literal => -(literal.val : Int))
        pattern value.meant (meantFields bindings) =
      (patternMatches Integer.positive (Integer.normalized true) pattern value bindings).map
        meantFields := by
  match pattern with
  | .wildcard => simp [patternMatches]
  | .binding name => simp [patternMatches, meantFields]
  | .integer literal =>
    cases value <;> simp [patternMatches, Value.meant, toInt_eq_positive]
  | .negativeInteger literal =>
    cases value <;> simp [patternMatches, Value.meant, toInt_eq_negative]
  | .string literal | .character literal | .bool literal =>
    cases value <;> simp [patternMatches, Value.meant]
  | .or alternatives =>
    exact anyMatches_meant alternatives value bindings
  | .struct typeName fields rest =>
    cases value with
    | struct name values =>
      simp only [Value.meant, patternMatches]
      split
      · exact fieldsMatch_meant fields values bindings
      · rfl
    | number _ | float _ | string _ | character _ | bool _ | array _ =>
      simp [patternMatches, Value.meant]
  | .variant typeName variant arguments => cases value <;> simp [patternMatches]

theorem anyMatches_meant (alternatives : List Pattern) (value : ConstValue F)
    (bindings : Bindings Integer F) :
    anyMatches (fun literal => (literal.val : Int)) (fun literal => -(literal.val : Int))
        alternatives value.meant (meantFields bindings) =
      (anyMatches Integer.positive (Integer.normalized true) alternatives value bindings).map
        meantFields := by
  match alternatives with
  | [] => simp [anyMatches]
  | alternative :: alternatives =>
    simp only [anyMatches, patternMatches_meant alternative value bindings]
    cases patternMatches Integer.positive (Integer.normalized true) alternative value bindings with
    | none => exact anyMatches_meant alternatives value bindings
    | some bindings => rfl

theorem fieldsMatch_meant (fields : List (String × Pattern))
    (values : List (String × ConstValue F)) (bindings : Bindings Integer F) :
    fieldsMatch (fun literal => (literal.val : Int)) (fun literal => -(literal.val : Int))
        fields (meantFields values) (meantFields bindings) =
      (fieldsMatch Integer.positive (Integer.normalized true) fields values bindings).map
        meantFields := by
  match fields with
  | [] => simp [fieldsMatch]
  | (name, pattern) :: fields =>
    simp only [fieldsMatch, lookup_meantFields]
    cases values.lookup name with
    | none => rfl
    | some value =>
      simp only [Option.map_some, patternMatches_meant pattern value bindings]
      cases patternMatches Integer.positive (Integer.normalized true) pattern value bindings with
      | none => rfl
      | some bindings => exact fieldsMatch_meant fields values bindings

end

theorem matchMeant_meant (pattern : Pattern) (value : ConstValue F) :
    matchMeant pattern value.meant = (matchConst pattern value).map meantFields :=
  patternMatches_meant pattern value []

end Values

/-! ## The checked evaluation realizes the exact one -/

section Realizes

variable {F : Type} (floats : FloatOps F) (registry : Registry) {α : Type} {kind : Kind} {n : Int}
  {env : Env F (Except Stop)} {exact : Env F (Logged Requirement)}

theorem realizes_owing {x : Except Stop α} {a : α} {requirement : Requirement}
    (h : ∀ b, x = .ok b ↔ b = a ∧ requirement.InRange) :
    Realizes Requirement.InRange x (Logged.owing a requirement) := by
  intro b
  rw [h b]
  constructor
  · rintro ⟨rfl, hrange⟩
    exact ⟨_, rfl, by simpa using hrange⟩
  · rintro ⟨log, hlog, hall⟩
    cases hlog
    exact ⟨rfl, hall _ (mem_singleton_self _)⟩

theorem realizes_hold (kind : Kind) (n : Int) :
    Realizes Requirement.InRange ((checkedSemantics floats).hold kind n)
      ((exactSemantics floats).hold kind n) := by
  apply realizes_owing
  simp only [checkedSemantics, Requirement.InRange]
  split <;> simp_all [eq_comm]

theorem realizes_negate (kind : Kind) (n : Int) :
    Realizes Requirement.InRange ((checkedSemantics floats).negate kind n)
      ((exactSemantics floats).negate kind n) := by
  apply realizes_owing
  simp only [checkedSemantics]
  rcases kind with _ | _ | width | width
  · simp only [applyUnary, Requirement.InRange]
    split <;> simp_all [numberOf, eq_comm]
  · simp [applyUnary, numberOf, Requirement.InRange]
  · simp only [applyUnary, Requirement.InRange]
    split <;> simp_all [numberOf, eq_comm]
  · cases width with
    | w128 =>
      simp only [applyUnary, Requirement.InRange]
      split <;> simp_all [numberOf, eq_comm]
    | w8 | w16 | w32 | w64 => simp [applyUnary, numberOf, Requirement.InRange]

theorem mem_computed_of_mem_range (h : n ∈ kind.range) : n ∈ kind.computed := by
  rcases kind with _ | _ | width | width
  · exact h
  · exact h
  · cases width <;> simp only [Kind.computed, Kind.range, signedRange, Disp.Arithmetic.Width.bits,
      mem_def] at h ⊢ <;> omega
  · cases width <;> simp only [Kind.computed, Kind.range, unsignedRange, Disp.Arithmetic.Width.bits,
      mem_def] at h ⊢ <;> omega

theorem hold_computed (kind : Kind) (n : Int) :
    (kind.computed.hold n).bind kind.range.hold = kind.range.hold n := by
  unfold IntRange.hold
  by_cases hrange : n ∈ kind.range
  · simp [mem_computed_of_mem_range hrange]
  · by_cases hcomputed : n ∈ kind.computed <;> simp [hrange]

theorem hold_eq_some_iff {range : IntRange} {m : Int} :
    range.hold n = some m ↔ n = m ∧ n ∈ range := by
  unfold IntRange.hold
  split <;> simp_all

theorem numberOf_checkedArith {op : ArithOp} {a b : Int}
    (h : ¬(b = 0 ∧ (op = .divide ∨ op = .remainder))) :
    numberOf (checkedArith kind op a b) = .ok n ↔
      (kind.computed.checked op a b).bind kind.range.hold = some n := by
  have hdivide : ¬(b = 0 ∧ op = .divide) := fun hb => h ⟨hb.1, .inl hb.2⟩
  have hremainder : ¬(b = 0 ∧ op = .remainder) := fun hb => h ⟨hb.1, .inr hb.2⟩
  unfold checkedArith
  rw [if_neg hdivide, if_neg hremainder]
  cases (kind.computed.checked op a b).bind kind.range.hold <;> simp [numberOf]

/-- The interpreter's operation has a number exactly where the exact one stays in range. -/
theorem checkedArith_eq_ok_iff (kind : Kind) (op : ArithOp) (a b n : Int) :
    numberOf (checkedArith kind op a b) = .ok n ↔
      exactArith op a b = some n ∧ (Requirement.operation kind op a b).InRange := by
  by_cases hzero : b = 0 ∧ (op = .divide ∨ op = .remainder)
  · obtain ⟨rfl, rfl | rfl⟩ := hzero <;> simp [checkedArith, exactArith, numberOf]
  · rw [numberOf_checkedArith hzero]
    cases op with
    | add | subtract | multiply =>
      simp only [IntRange.checked, hold_computed, hold_eq_some_iff, exactArith,
        Requirement.InRange, Option.some.injEq]
    | divide =>
      have hb : b ≠ 0 := fun hb => hzero ⟨hb, .inl rfl⟩
      simp only [IntRange.checked, hb, if_false, hold_computed, hold_eq_some_iff, exactArith,
        Requirement.InRange, Option.some.injEq]
    | remainder =>
      have hb : b ≠ 0 := fun hb => hzero ⟨hb, .inr rfl⟩
      by_cases hlow : a = kind.computed.lo ∧ b = -1
      · simp [IntRange.checked, hlow, Requirement.InRange]
      · simp only [IntRange.checked, hb, hlow, or_self, if_false, hold_computed,
          hold_eq_some_iff, exactArith, Requirement.InRange, Option.some.injEq,
          not_false_eq_true, and_true]

theorem realizes_arith (kind : Kind) (op : ArithOp) (a b : Int) :
    Realizes Requirement.InRange ((checkedSemantics floats).arith kind op a b)
      ((exactSemantics floats).arith kind op a b) := by
  have h := checkedArith_eq_ok_iff kind op a b
  simp only [checkedSemantics, exactSemantics]
  cases hexact : exactArith op a b with
  | none =>
    intro n
    simp [h, hexact]
  | some m =>
    apply realizes_owing
    simp [h, hexact, eq_comm]

theorem realizes_single (x : F) : Realizes Requirement.InRange ((checkedSemantics floats).single x)
      ((exactSemantics floats).single x) :=
  Realizes.pure _

theorem realizes_stuck :
    Realizes Requirement.InRange ((checkedSemantics floats).stuck : Except Stop α)
      ((exactSemantics floats).stuck : Logged Requirement α) :=
  Realizes.stuck _

theorem realizes_convert (ty : Ty) (value : Meant F) :
    Realizes Requirement.InRange (convert (checkedSemantics floats) ty value)
      (convert (exactSemantics floats) ty value) := by
  unfold convert
  split
  · exact (realizes_hold floats _ _).map _
  · exact realizes_stuck floats
  · split
    · exact (realizes_single floats _).map _
    · exact Realizes.pure _
  · exact Realizes.pure _

theorem realizes_unaryAt (ty : Ty) (op : UnaryOperator) (value : Meant F) :
    Realizes Requirement.InRange (unaryAt floats (checkedSemantics floats) ty op value)
      (unaryAt floats (exactSemantics floats) ty op value) := by
  unfold unaryAt
  split
  · split
    · exact (realizes_negate floats _ _).map _
    · exact Realizes.pure _
  · exact Realizes.pure _
  · exact Realizes.pure _
  · exact realizes_stuck floats

theorem realizes_operateAt (ty : Ty) (op : BinaryOperator) (left right : Meant F) :
    Realizes Requirement.InRange (operateAt floats (checkedSemantics floats) ty op left right)
      (operateAt floats (exactSemantics floats) ty op left right) := by
  unfold operateAt
  split
  · split
    · exact (realizes_arith floats _ _ _ _).map _
    · exact realizes_stuck floats
  · split
    · exact (realizes_single floats _).map _
    · exact Realizes.pure _
  · exact Realizes.pure _
  · exact Realizes.pure _
  · split
    · exact Realizes.pure _
    · exact realizes_stuck floats
  · split
    · exact Realizes.pure _
    · exact realizes_stuck floats
  · exact Realizes.pure _
  · exact Realizes.pure _
  · exact realizes_stuck floats

theorem realizes_binaryAt (ty : Ty) (op : BinaryOperator) (left right : Meant F) :
    Realizes Requirement.InRange (binaryAt floats (checkedSemantics floats) ty op left right)
      (binaryAt floats (exactSemantics floats) ty op left right) :=
  (realizes_convert floats ty left).bind fun left =>
    (realizes_convert floats ty right).bind fun right =>
      realizes_operateAt floats ty op left right

theorem realizes_fieldAt (value : Meant F) (field : String) :
    Realizes Requirement.InRange (fieldAt (checkedSemantics floats) value field)
      (fieldAt (exactSemantics floats) value field) := by
  unfold fieldAt
  split
  · split
    · exact Realizes.pure _
    · exact realizes_stuck floats
  · exact realizes_stuck floats

theorem realizes_givenAt (id : Nat) (arguments : List Ty) (name : String) (value : Meant F) :
    Realizes Requirement.InRange
      (givenAt (checkedSemantics floats) registry id arguments name value)
      (givenAt (exactSemantics floats) registry id arguments name value) := by
  unfold givenAt
  split
  · exact realizes_convert floats _ _
  · exact realizes_stuck floats

/-- One name in scope of both evaluations. -/
def EntryRealizes : Option (Ty × Except Stop (Meant F)) →
    Option (Ty × Logged Requirement (Meant F)) → Prop
  | none, none => True
  | some (ty, typed), some (ty', meaning) =>
    ty = ty' ∧ Realizes Requirement.InRange typed meaning
  | _, _ => False

/-- The same names in scope of both evaluations. -/
def EnvRealizes (env : Env F (Except Stop)) (exact : Env F (Logged Requirement)) : Prop :=
  List.Forall₂ (fun a b => a.1 = b.1 ∧ EntryRealizes a.2 b.2) env exact

variable {floats registry}

theorem EnvRealizes.types (h : EnvRealizes env exact) : env.types = exact.types := by
  induction h with
  | nil => rfl
  | cons hab _ ih =>
    rename_i a b _ _ _
    obtain ⟨hname, hentry⟩ := hab
    have hty : a.2.map Prod.fst = b.2.map Prod.fst := by
      rcases ha : a.2 with _ | ⟨ty, typed⟩ <;> rcases hb : b.2 with _ | ⟨ty', meaning⟩ <;>
        simp_all [EntryRealizes]
    change (a.1, _) :: _ = (b.1, _) :: _
    rw [hname, hty]
    exact congrArg _ ih

theorem EnvRealizes.lookup (h : EnvRealizes env exact) (name : String) :
    (env.lookup name = none ∧ exact.lookup name = none) ∨
      ∃ a b, env.lookup name = some a ∧ exact.lookup name = some b ∧ EntryRealizes a b := by
  induction h with
  | nil => exact .inl ⟨rfl, rfl⟩
  | cons hab _ ih =>
    rename_i a b _ _ _
    obtain ⟨key, a⟩ := a
    obtain ⟨key', b⟩ := b
    obtain ⟨rfl, hentry⟩ : key = key' ∧ EntryRealizes a b := hab
    simp only [lookup_cons]
    cases name == key with
    | true => exact .inr ⟨_, _, rfl, rfl, hentry⟩
    | false => exact ih

theorem EnvRealizes.boundAt {env : Env F (Except Stop)} {exact : Env F (Logged Requirement)}
    (h : EnvRealizes env exact) (pattern : Pattern) (scrutinee : Ty) (bindings : Bindings Int F) :
    EnvRealizes (boundAt registry pattern scrutinee bindings ++ env)
      (boundAt registry pattern scrutinee bindings ++ exact) := by
  refine rel_append ?_ h
  induction bindings with
  | nil => exact .nil
  | cons binding bindings ih =>
    obtain ⟨name, value⟩ := binding
    refine .cons ?_ ih
    cases checkPattern registry pattern scrutinee with
    | error _ => exact ⟨rfl, trivial⟩
    | ok checked =>
      refine ⟨rfl, ?_⟩
      change EntryRealizes ((checked.2.lookup name).map _) ((checked.2.lookup name).map _)
      cases checked.2.lookup name with
      | none => trivial
      | some ty => exact ⟨rfl, Realizes.pure _⟩

mutual

/-- The checked evaluation has the exact value precisely where every operation is in range. -/
theorem realizes_evaluateAt {env : Env F (Except Stop)}
    {exact : Env F (Logged Requirement)} (henv : EnvRealizes env exact) (e : Expr F) :
    Realizes Requirement.InRange (evaluateAt floats (checkedSemantics floats) registry env e)
      (evaluateAt floats (exactSemantics floats) registry exact e) := by
  match e with
  | .integer value | .float value | .string value | .character value | .bool value =>
    exact Realizes.pure _
  | .identifier name =>
    simp only [evaluateAt]
    rcases henv.lookup name with ⟨ha, hb⟩ | ⟨a, b, ha, hb, hentry⟩
    · rw [ha, hb]
      exact realizes_stuck floats
    · rw [ha, hb]
      rcases a with _ | ⟨ty, typed⟩ <;> rcases b with _ | ⟨ty', meaning⟩
      · exact realizes_stuck floats
      · exact hentry.elim
      · exact hentry.elim
      · exact hentry.2
  | .array values =>
    exact (realizes_evaluateAll henv values).bind fun _ => Realizes.pure _
  | .structConstruct name fields =>
    simp only [evaluateAt, henv.types]
    split
    · exact (realizes_evaluateFields henv _ _ fields []).bind fun _ => Realizes.pure _
    · exact realizes_stuck floats
  | .fieldAccess object field =>
    exact (realizes_evaluateAt henv object).bind fun object => realizes_fieldAt floats object field
  | .unary op operand =>
    simp only [evaluateAt, henv.types]
    split
    · exact (realizes_evaluateAt henv operand).bind fun value => realizes_unaryAt floats _ op value
    · exact realizes_stuck floats
  | .binary left op right =>
    simp only [evaluateAt, henv.types]
    split
    · refine (realizes_evaluateAt henv left).bind fun leftValue => ?_
      split
      · exact Realizes.pure _
      · exact (realizes_evaluateAt henv right).bind fun rightValue =>
          realizes_binaryAt floats _ op leftValue rightValue
    · exact realizes_stuck floats
  | .matchArms value arms =>
    simp only [evaluateAt, henv.types]
    split
    · exact (realizes_evaluateAt henv value).bind fun value =>
        realizes_evaluateArms henv _ value arms
    · exact realizes_stuck floats
  | .other =>
    exact realizes_stuck floats

theorem realizes_evaluateAll {env : Env F (Except Stop)}
    {exact : Env F (Logged Requirement)} (henv : EnvRealizes env exact)
    (values : List (Expr F)) :
    Realizes Requirement.InRange (evaluateAll floats (checkedSemantics floats) registry env values)
      (evaluateAll floats (exactSemantics floats) registry exact values) := by
  match values with
  | [] =>
    exact Realizes.pure _
  | value :: values =>
    exact (realizes_evaluateAt henv value).bind fun _ =>
      (realizes_evaluateAll henv values).bind fun _ => Realizes.pure _

theorem realizes_evaluateFields {env : Env F (Except Stop)}
    {exact : Env F (Logged Requirement)} (henv : EnvRealizes env exact) (id : Nat)
    (arguments : List Ty) (fields : List (String × Expr F)) (given : List (String × Meant F)) :
    Realizes Requirement.InRange
      (evaluateFields floats (checkedSemantics floats) registry env id arguments fields given)
      (evaluateFields floats (exactSemantics floats) registry exact id arguments fields given) := by
  match fields with
  | [] =>
    exact Realizes.pure _
  | (name, value) :: fields =>
    exact (realizes_evaluateAt henv value).bind fun value =>
      (realizes_givenAt floats registry id arguments name value).bind fun value =>
        realizes_evaluateFields henv id arguments fields ((name, value) :: given)

theorem realizes_evaluateArms {env : Env F (Except Stop)}
    {exact : Env F (Logged Requirement)} (henv : EnvRealizes env exact) (scrutinee : Ty)
    (value : Meant F) (arms : List (Pattern × Option (Expr F) × Expr F)) :
    Realizes Requirement.InRange
      (evaluateArms floats (checkedSemantics floats) registry env scrutinee value arms)
      (evaluateArms floats (exactSemantics floats) registry exact scrutinee value arms) := by
  match arms with
  | [] =>
    exact realizes_stuck floats
  | (pattern, none, result) :: arms =>
    simp only [evaluateArms]
    cases matchMeant pattern value with
    | none => exact realizes_evaluateArms henv scrutinee value arms
    | some bindings => exact realizes_evaluateAt (henv.boundAt pattern scrutinee bindings) result
  | (pattern, some guard, result) :: arms =>
    simp only [evaluateArms]
    cases matchMeant pattern value with
    | none => exact realizes_evaluateArms henv scrutinee value arms
    | some bindings =>
      have hbound : EnvRealizes (boundAt registry pattern scrutinee bindings ++ _) _ :=
        henv.boundAt pattern scrutinee bindings
      refine (realizes_evaluateAt hbound guard).bind fun holds => ?_
      split
      · exact realizes_evaluateAt hbound result
      · exact realizes_evaluateArms henv scrutinee value arms
      · exact realizes_stuck floats

end

theorem realizes_constantAt (henv : EnvRealizes env exact) (ty : Ty) (value : Expr F) :
    Realizes Requirement.InRange (constantAt floats (checkedSemantics floats) registry env ty value)
      (constantAt floats (exactSemantics floats) registry exact ty value) :=
  (realizes_evaluateAt henv value).bind fun value => realizes_convert floats ty value

end Realizes

/-! ## Compile-time evaluation computes the value without types -/

section Plain

variable {F : Type} {floats : FloatOps F} {limits : Limits} {types : Types} {scopes : Scopes F}
  {env : Plain F} {α : Type}

theorem compareOrdering_holds (op : CompareOp) (a b : Integer) :
    compareOrdering (a.compare b) (.compare op) = op.holds a.toInt b.toInt := by
  rw [Integer.compare_eq]
  unfold compareOfLessAndEq
  cases op <;> simp only [compareOrdering, CompareOp.holds] <;> split <;>
    simp_all [Ordering.isLT, Ordering.isGT] <;> grind

theorem compareOrdering_ofLess [LinearOrder α] (a b : α) :
    compareOrdering (compareOfLessAndEq a b) .equal = decide (a = b) := by
  unfold compareOfLessAndEq
  simp only [compareOrdering]
  split <;> simp_all [Ordering.isEq] <;> grind

theorem compareOrdering_equal (a b : Integer) :
    compareOrdering (a.compare b) .equal = decide (a.toInt = b.toInt) := by
  rw [Integer.compare_eq, compareOrdering_ofLess]

/-- The compile-time integers are the exact ones: every operation has the exact result, and none
exactly when that does not exist or its magnitude is no `u128`. -/
theorem integer_operations_exact {F : Type} (floats : FloatOps F) (a b : Integer) :
    (evalUnary floats .negate (.number a) = .ok (.number a.negate) ∧ a.negate.toInt = -a.toInt) ∧
      (∀ op result, evalOperator floats (.number a) (.arith op) (.number b) = .ok result ↔
        ∃ c : Integer, result = .number c ∧ exactArith op a.toInt b.toInt = some c.toInt) ∧
      (∀ op, (∃ error, evalOperator floats (.number a) (.arith op) (.number b) = .error error) ↔
        (op = .divide ∨ op = .remainder) ∧ b.toInt = 0 ∨
          ∃ n, exactArith op a.toInt b.toInt = some n ∧ 2 ^ 128 ≤ n.natAbs) ∧
      (∀ op, evalOperator floats (.number a) (.compare op) (.number b) =
        .ok (.bool (op.holds a.toInt b.toInt))) ∧
      evalOperator floats (.number a) .equal (.number b) =
        .ok (.bool (decide (a.toInt = b.toInt))) ∧
      evalOperator floats (.number a) .notEqual (.number b) =
        .ok (.bool (decide (a.toInt ≠ b.toInt))) ∧
      (a.toInt = 0 → a.negative = false) ∧ (a = b ↔ a.toInt = b.toInt) := by
  refine ⟨⟨rfl, a.toInt_negate⟩, fun op result => ?_, fun op => ?_, fun op => ?_, ?_, ?_, ?_,
    Integer.toInt_inj.symm⟩
  · simp only [evalOperator, ← evalArith_eq_ok_iff]
    cases evalArith op a b <;> simp [Except.map, eq_comm]
  · simp only [← evalArith_eq_error_iff, evalOperator]
    cases evalArith op a b <;> simp [Except.map]
  · rw [← compareOrdering_holds]
    rfl
  · rw [← compareOrdering_equal]
    rfl
  · rw [decide_not, ← compareOrdering_equal]
    rfl
  · intro hzero
    by_contra hsign
    exact a.normal (by simpa using hsign) (toInt_eq_zero.mp hzero)

theorem plainUnary_meant {op : UnaryOperator} {value result : ConstValue F}
    (h : evalUnary floats op value = .ok result) :
    plainUnary floats op value.meant = some result.meant := by
  cases op <;> cases value <;> cases h
  · simp [plainUnary, Value.meant, Integer.toInt_negate]
  · rfl
  · rfl

theorem plainComparison_meant {ordering : Ordering} {op : BinaryOperator} {error : ConstError}
    {result : ConstValue F}
    (h : (if comparison op then .ok (.bool (compareOrdering ordering op)) else .error error) =
      Except.ok result) : plainComparison ordering op = some result.meant := by
  rw [plainComparison]
  split at h <;> cases h
  rw [if_pos ‹_›]
  rfl

theorem plainOperator_meant {op : BinaryOperator} {left right result : ConstValue F}
    (h : evalOperator floats left op right = .ok result) :
    plainOperator floats left.meant op right.meant = some result.meant := by
  unfold evalOperator at h
  split at h
  · rename_i a op b
    cases harith : evalArith op a b with
    | error error => simp [harith, Except.map] at h
    | ok c =>
      rw [harith] at h
      cases h
      simp [Value.meant, plainOperator, evalArith_eq_ok_iff.mp harith]
  case h_2 | h_3 | h_4 | h_5 | h_6 | h_7 =>
    cases h
    rfl
  · rename_i hop
    rw [Integer.compare_eq] at h
    rw [← plainComparison_meant h]
    cases op with
    | arith op => exact absurd rfl (hop op)
    | _ => rfl
  · rename_i hop
    split at h <;> cases h
    cases op with
    | arith op => exact absurd rfl (hop op)
    | equal | notEqual | compare => rfl
    | and | or => contradiction
  · rename_i hadd
    rw [← plainComparison_meant h]
    cases op with
    | arith op =>
      cases op with
      | add => exact absurd rfl hadd
      | _ => rfl
    | _ => rfl
  · rw [← plainComparison_meant h]
    cases op <;> rfl
  · cases h

theorem lift_eq_ok {x : Except ConstError α} {s s' : Nat} {a : α}
    (h : (liftM x : Steps α) s = .ok (a, s')) : x = .ok a := by
  cases x with
  | error error => cases h
  | ok value =>
    cases h
    rfl

theorem decidedAt_meant (op : BinaryOperator) (value : ConstValue F) :
    decidedAt op value.meant = (decidedByLeft op value).map Value.meant := by
  cases op <;> cases value <;> try rfl
  all_goals
    rename_i b
    cases b <;> rfl

theorem plainField_meant {value result : ConstValue F} {field : String}
    (h : fieldOf value field = .ok result) : plainField value.meant field = some result.meant := by
  cases value with
  | struct name fields =>
    simp only [fieldOf] at h
    split at h
    · rename_i hlook
      cases h
      rw [Value.meant, plainField, lookup_meantFields, hlook]
      rfl
    · cases h
  | number _ | float _ | string _ | character _ | bool _ | array _ => cases h

theorem eq_true_of_isTrue {value : ConstValue F} (h : isTrue value = true) :
    value = .bool true := by
  unfold isTrue at h
  split at h
  · rfl
  · cases h

/-- A name of a constant that has a value in scope of evaluation has the value that is meant. -/
def ScopesAgree (scopes : Scopes F) (env : Plain F) (types : Types) : Prop :=
  ∀ ⦃name value⦄, lookupValue scopes name = some value →
    ((types.lookup name).bind id).isSome = true → (env.lookup name).bind id = some value.meant

theorem ScopesAgree.bound (h : ScopesAgree scopes env types) (bindings : Bindings Integer F) :
    ScopesAgree (bound bindings ++ scopes) (plainBound (meantFields bindings) ++ env) types := by
  induction bindings with
  | nil => exact h
  | cons binding bindings ih =>
    obtain ⟨key, bindingValue⟩ := binding
    intro name value hval hconst
    change (lookup name ((key, some bindingValue) ::
      (Disp.Constants.bound bindings ++ scopes))).bind id = some value at hval
    change (lookup name ((key, some bindingValue.meant) ::
      (plainBound (meantFields bindings) ++ env))).bind id = some value.meant
    rw [lookup_cons] at hval ⊢
    cases hkey : name == key with
    | true =>
      simp only [hkey] at hval ⊢
      cases hval
      rfl
    | false =>
      simp only [hkey] at hval ⊢
      exact ih hval hconst

mutual

/-- Whenever compile-time evaluation has a value, it is the one without types. -/
theorem eval_plain {scopes : Scopes F} {env : Plain F} (h : ScopesAgree scopes env types)
    (depth : Nat) (e : Expr F) (hconst : isConstantExpression types e = true) {s s' : Nat}
    {value : ConstValue F} (hrun : eval floats limits scopes depth e s = .ok (value, s')) :
    plainValue floats env e = some value.meant := by
  match e with
  | .integer literal =>
    obtain ⟨⟨⟨⟩, t⟩, -, hrun⟩ := bind_eq_ok hrun
    cases hrun
    rw [plainValue, Value.meant, Integer.toInt_positive]
  | .float _ | .string _ | .character _ | .bool _ =>
    obtain ⟨⟨⟨⟩, t⟩, -, hrun⟩ := bind_eq_ok hrun
    cases hrun
    rfl
  | .identifier name =>
    obtain ⟨⟨⟨⟩, t⟩, -, hrun⟩ := bind_eq_ok hrun
    cases hval : lookupValue scopes name with
    | none =>
      simp only [hval] at hrun
      cases hrun
    | some found =>
      simp only [hval] at hrun
      cases hrun
      exact h hval hconst
  | .array values =>
    obtain ⟨⟨⟨⟩, t⟩, -, hrun⟩ := bind_eq_ok hrun
    obtain ⟨⟨parts, t⟩, hparts, hrun⟩ := bind_eq_ok hrun
    cases hrun
    rw [plainValue, evalAll_plain h (depth + 1) values hconst hparts]
    rfl
  | .structConstruct name fields =>
    obtain ⟨⟨⟨⟩, t⟩, -, hrun⟩ := bind_eq_ok hrun
    obtain ⟨⟨parts, t⟩, hparts, hrun⟩ := bind_eq_ok hrun
    cases hrun
    have hfields := evalFields_plain h (depth + 1) fields [] hconst hparts
    rw [meantFields] at hfields
    rw [plainValue, hfields]
    rfl
  | .fieldAccess object field =>
    obtain ⟨⟨⟨⟩, t⟩, -, hrun⟩ := bind_eq_ok hrun
    obtain ⟨⟨part, t⟩, hpart, hrun⟩ := bind_eq_ok hrun
    rw [plainValue, eval_plain h (depth + 1) object hconst hpart]
    exact plainField_meant (lift_eq_ok hrun)
  | .unary op operand =>
    obtain ⟨⟨⟨⟩, t⟩, -, hrun⟩ := bind_eq_ok hrun
    obtain ⟨⟨part, t⟩, hpart, hrun⟩ := bind_eq_ok hrun
    rw [plainValue, eval_plain h (depth + 1) operand hconst hpart]
    exact plainUnary_meant (lift_eq_ok hrun)
  | .binary left op right =>
    rw [isConstantExpression, Bool.and_eq_true] at hconst
    obtain ⟨⟨⟨⟩, t⟩, -, hrun⟩ := bind_eq_ok hrun
    obtain ⟨⟨leftValue, t⟩, hleft, hrun⟩ := bind_eq_ok hrun
    rw [plainValue, eval_plain h (depth + 1) left hconst.1 hleft]
    simp only [Option.bind_eq_bind, Option.bind_some, decidedAt_meant] at hrun ⊢
    cases hdecided : decidedByLeft op leftValue with
    | some decided =>
      rw [hdecided] at hrun
      cases hrun
      rfl
    | none =>
      rw [hdecided] at hrun
      obtain ⟨⟨rightValue, t⟩, hright, hrun⟩ := bind_eq_ok hrun
      rw [eval_plain h (depth + 1) right hconst.2 hright]
      exact plainOperator_meant (lift_eq_ok hrun)
  | .matchArms scrutinee arms =>
    rw [isConstantExpression, Bool.and_eq_true] at hconst
    obtain ⟨⟨⟨⟩, t⟩, -, hrun⟩ := bind_eq_ok hrun
    obtain ⟨⟨part, t⟩, hpart, hrun⟩ := bind_eq_ok hrun
    rw [plainValue, eval_plain h (depth + 1) scrutinee hconst.1 hpart]
    exact evalArms_plain h (depth + 1) part arms hconst.2 hrun
  | .other => cases hconst

theorem evalAll_plain {scopes : Scopes F} {env : Plain F} (h : ScopesAgree scopes env types)
    (depth : Nat) (exprs : List (Expr F)) (hconst : allConstant types exprs = true) {s s' : Nat}
    {values : List (ConstValue F)}
    (hrun : evalAll floats limits scopes depth exprs s = .ok (values, s')) :
    plainAll floats env exprs = some (meantAll values) := by
  match exprs with
  | [] =>
    cases hrun
    rfl
  | expr :: exprs =>
    rw [allConstant, Bool.and_eq_true] at hconst
    obtain ⟨⟨value, t⟩, hval, hrun⟩ := bind_eq_ok hrun
    obtain ⟨⟨rest, t⟩, hrest, hrun⟩ := bind_eq_ok hrun
    cases hrun
    rw [plainAll, eval_plain h depth expr hconst.1 hval,
      evalAll_plain h depth exprs hconst.2 hrest]
    rfl

theorem evalFields_plain {scopes : Scopes F} {env : Plain F} (h : ScopesAgree scopes env types)
    (depth : Nat) (fields : List (String × Expr F)) (given : List (String × ConstValue F))
    (hconst : fieldsConstant types fields = true) {s s' : Nat}
    {values : List (String × ConstValue F)}
    (hrun : evalFields floats limits scopes depth fields given s = .ok (values, s')) :
    plainFields floats env fields (meantFields given) = some (meantFields values) := by
  match fields with
  | [] =>
    cases hrun
    rfl
  | (name, expr) :: fields =>
    rw [fieldsConstant, Bool.and_eq_true] at hconst
    obtain ⟨⟨value, t⟩, hval, hrun⟩ := bind_eq_ok hrun
    rw [plainFields, eval_plain h depth expr hconst.1 hval]
    exact evalFields_plain h depth fields ((name, value) :: given) hconst.2 hrun

theorem evalArms_plain {scopes : Scopes F} {env : Plain F} (h : ScopesAgree scopes env types)
    (depth : Nat) (value : ConstValue F) (arms : List (Pattern × Option (Expr F) × Expr F))
    (hconst : armsConstant types arms = true) {s s' : Nat} {result : ConstValue F}
    (hrun : evalArms floats limits scopes depth value arms s = .ok (result, s')) :
    plainArms floats env value.meant arms = some result.meant := by
  match arms with
  | [] => cases hrun
  | (pattern, none, expr) :: arms =>
    rw [armsConstant, Bool.and_eq_true] at hconst
    simp only [evalArms] at hrun
    simp only [plainArms, matchMeant_meant]
    cases hmatch : matchConst pattern value with
    | none =>
      rw [hmatch] at hrun
      exact evalArms_plain h depth value arms hconst.2 hrun
    | some bindings =>
      rw [hmatch] at hrun
      exact eval_plain (h.bound bindings) depth expr hconst.1 hrun
  | (pattern, some guard, expr) :: arms =>
    rw [armsConstant, Bool.and_eq_true, Bool.and_eq_true] at hconst
    simp only [evalArms] at hrun
    simp only [plainArms, matchMeant_meant]
    cases hmatch : matchConst pattern value with
    | none =>
      rw [hmatch] at hrun
      exact evalArms_plain h depth value arms hconst.2 hrun
    | some bindings =>
      rw [hmatch] at hrun
      obtain ⟨⟨holds, t⟩, hguard, hrun⟩ := bind_eq_ok hrun
      simp only [Option.map_some, eval_plain (h.bound bindings) depth guard hconst.1.1 hguard]
      dsimp only at hrun
      split at hrun
      · obtain rfl : holds = .bool true := eq_true_of_isTrue ‹_›
        exact eval_plain (h.bound bindings) depth expr hconst.1.2 hrun
      · have hrest := evalArms_plain h depth value arms hconst.2 hrun
        cases holds with
        | bool b =>
          cases b with
          | true => exact absurd rfl ‹_›
          | false => exact hrest
        | number _ | float _ | string _ | character _ | array _ | struct _ _ => exact hrest

end

end Plain

end Disp.Constants

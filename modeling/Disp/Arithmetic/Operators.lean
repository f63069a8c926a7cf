import Disp.Arithmetic.Expressions

/-!
# Operators on evaluated operands

An operator together with the operands it is applied to, and when the interpreter
applies it safely.  Integers of two representations are brought to one by the
pair coercion, which looks at the representations and converts the left operand, the
right one or neither; where it leaves them apart, or rejects a value that is no
literal, the application goes wrong.
-/

namespace Disp.Arithmetic

open Disp.Library.MachineInt

variable {a b kind : Kind} {n m : Int}

/-- Applying `op` to two evaluated operands, the left one first. -/
def step (op : BinaryOperator) (left right : Value) : Except Fault Value :=
  match decidedByLeft op left with
  | some outcome => outcome
  | none => applyOperator op left right

/-- The two values are the same integer, in whatever representation, or the same
Boolean. -/
def Value.same : Value → Value → Bool
  | .number _ n, .number _ m => decide (n = m)
  | .bool a, .bool b => a == b
  | _, _ => false

/-! ## Applications -/

/-- An operator on its operands; `literal` marks a right operand that is an integer
literal. -/
inductive Application
  | unary (op : UnaryOperator) (value : Value)
  | binary (op : BinaryOperator) (literal : Bool) (left right : Value)
  | assign (target : Target) (op : ArithOp) (literal : Bool) (left right : Value)
  deriving DecidableEq

namespace Application

def outcome : Application → Except Fault Value
  | .unary op value => applyUnary op value
  | .binary op _ left right => step op left right
  | .assign target op _ left right => assignStep target op left right

def literal : Application → Bool
  | .unary _ _ => false
  | .binary _ literal _ _ | .assign _ _ literal _ _ => literal

end Application

/-- The faults of type-safe arithmetic: overflow, a zero divisor, and the coercion of a
literal. -/
def Fault.Permitted (literal : Bool) : Fault → Prop
  | .overflow _ _ | .negationOverflow _ | .divisionByZero | .remainderByZero => True
  | .notRepresentable _ _ | .outsideRange _ _ => literal = true
  | _ => False

/-- An equality with the result `value` is decided on the integers. -/
def Application.Decides : Application → Value → Prop
  | .binary .equal _ left right, value => value = .bool (left.same right)
  | .binary .notEqual _ left right, value => value = .bool !(left.same right)
  | _, _ => True

structure Application.Sound (application : Application) : Prop where
  fault : ∀ fault, application.outcome = .error fault → fault.Permitted application.literal
  decides : ∀ value, application.outcome = .ok value → application.Decides value

/-! ## Matched operands -/

def Kind.fixed : Kind → Bool
  | .signed _ | .unsigned _ => true
  | .int | .uint => false

/-- The pair coercion brings a left operand of representation `a` and the right operand
`m` of representation `b` to one representation. -/
def Together (a b : Kind) (m : Int) : Prop :=
  match pairCoercion a b with
  | .left => True
  | .right => m ∈ a.range
  | .neither => a = b

/-- The pair coercion rejects the right operand. -/
def Refused (a b : Kind) (m : Int) : Prop :=
  pairCoercion a b = .right ∧ a.fixed = true ∧ m ∉ a.range

instance (a b : Kind) (m : Int) : Decidable (Together a b m) :=
  match h : pairCoercion a b with
  | .left => .isTrue (by rw [Together, h]; trivial)
  | .right => decidable_of_iff (m ∈ a.range) (by rw [Together, h])
  | .neither => decidable_of_iff (a = b) (by rw [Together, h])

instance (a b : Kind) (m : Int) : Decidable (Refused a b m) :=
  inferInstanceAs (Decidable (_ ∧ _ ∧ _))

/-- The representations of the operands suit the operator.  Only a literal may be
rejected; an equality may also be left with two representations of different integers. -/
def Application.Matched : Application → Prop
  | .unary .negate (.number kind n) =>
    kind = .int ∨ (∃ width, kind = .signed width) ∨ (kind = .unsigned .w128 ∧ n ≤ 2 ^ 127)
  | .binary (.arith _) literal (.number a _) (.number b m)
  | .binary (.compare _) literal (.number a _) (.number b m) =>
    Together a b m ∨ (Refused a b m ∧ literal = true)
  | .binary .equal literal (.number a n) (.number b m)
  | .binary .notEqual literal (.number a n) (.number b m) =>
    Together a b m ∨ if Refused a b m then literal = true else n ≠ m
  | .assign (.whole _) _ literal (.number a _) (.number b m) =>
    if a.fixed then m ∈ a.range ∨ literal = true else b.fixed = false ∧ m ∈ a.range
  | .assign (.part _ _ _) _ _ (.number a _) (.number b _) => a = b
  | _ => True

/-- Operands an accepted operator gets: integers in the range of their representation,
or Booleans. -/
def Application.Formed : Application → Prop
  | .unary .negate (.number _ _) | .unary .not (.bool _)
  | .binary .equal _ (.bool _) (.bool _) | .binary .notEqual _ (.bool _) (.bool _)
  | .binary .and _ (.bool _) (.bool _) | .binary .or _ (.bool _) (.bool _) => True
  | .binary (.arith _) _ (.number a n) (.number b m)
  | .binary (.compare _) _ (.number a n) (.number b m)
  | .binary .equal _ (.number a n) (.number b m)
  | .binary .notEqual _ (.number a n) (.number b m)
  | .assign _ _ _ (.number a n) (.number b m) => n ∈ a.range ∧ m ∈ b.range
  | _ => False

/-! ## Coercion -/

/-- The fault of a coercion, which is permitted of a literal. -/
theorem coerceValue_refused (hfixed : a.fixed = true) (hm : m ∉ a.range) :
    ∃ fault, coerceValue (.number b m) a = .error fault ∧
      ∀ literal, fault.Permitted literal ↔ literal = true := by
  cases a with
  | int | uint => cases hfixed
  | signed width | unsigned width =>
    simp only [coerceValue]
    split
    · exact ⟨_, rfl, fun _ => Iff.rfl⟩
    · exact ⟨_, rfl, fun _ => Iff.rfl⟩

theorem coerceValue_of_mem (hsource : a.fixed = true ∨ b.fixed = false) (hm : m ∈ a.range) :
    coerceValue (.number b m) a = .ok (.number a m) := by
  cases a with
  | signed width =>
    have hbig : ¬ (b = .unsigned .w128 ∧ (signedRange 128).hi < m) := by
      rintro ⟨-, hbig⟩
      have := hm.2
      cases width <;> simp only [Kind.range, signedRange, Width.bits] at hbig this <;> omega
    simp [coerceValue, hbig, hm]
  | unsigned width =>
    have hneg : ¬ m < 0 := not_lt.mpr hm.1
    simp [coerceValue, hneg, hm]
  | int | uint =>
    cases b with
    | signed width | unsigned width => simp [Kind.fixed] at hsource
    | int | uint =>
      have hle := hm.2
      have hlo := hm.1
      simp_all [coerceValue, Kind.range, signedRange, unsignedRange]

theorem coerceValue_kept (hplain : a.fixed = false) (hm : m ∈ b.range)
    (hout : b.fixed = true ∨ m ∉ a.range) : coerceValue (.number b m) a = .ok (.number b m) := by
  cases a with
  | signed width | unsigned width => cases hplain
  | int =>
    cases b with
    | int | signed width | unsigned width => rfl
    | uint =>
      have hbig : ¬ m ≤ (signedRange 64).hi := fun hle =>
        hout.elim nofun fun hmem => hmem ⟨le_trans (by decide) hm.1, hle⟩
      simp [coerceValue, hbig]
  | uint =>
    cases b with
    | uint | signed width | unsigned width => rfl
    | int =>
      have hneg : ¬ 0 ≤ m := fun hle =>
        hout.elim nofun fun hmem => hmem ⟨hle, hm.2.trans (by decide)⟩
      simp [coerceValue, hneg]

/-- A left operand is only converted to a representation that holds all its values. -/
theorem mem_of_pairCoercion_left (h : pairCoercion a b = .left) (hn : n ∈ a.range) :
    b.fixed = true ∧ n ∈ b.range := by
  have hwithin : b.fixed = true ∧ b.range.lo ≤ a.range.lo ∧ a.range.hi ≤ b.range.hi := by
    revert h
    cases a with
    | int => cases b with
      | signed w => cases w <;> decide
      | _ => simp [pairCoercion]
    | uint => cases b with
      | unsigned w => cases w <;> decide
      | _ => simp [pairCoercion]
    | signed v => cases b with
      | signed w | unsigned w => cases v <;> cases w <;> decide
      | _ => simp [pairCoercion]
    | unsigned v => cases b with
      | signed w | unsigned w => cases v <;> cases w <;> decide
      | uint => cases v <;> decide
      | _ => simp [pairCoercion]
  exact ⟨hwithin.1, hwithin.2.1.trans hn.1, hn.2.trans hwithin.2.2⟩

/-- A right operand is converted to a fixed width, or an `int` to a `uint`. -/
theorem pairCoercion_right (h : pairCoercion a b = .right) :
    a.fixed = true ∨ (a = .uint ∧ b = .int) := by
  cases a with
  | int =>
    cases b with
    | signed w => cases w <;> cases h
    | _ => cases h
  | uint =>
    cases b with
    | int => exact .inr ⟨rfl, rfl⟩
    | unsigned w => cases w <;> cases h
    | _ => cases h
  | signed v | unsigned v => exact .inl rfl

/-- What the pair coercion does to two integers. -/
inductive PairCases (a b : Kind) (n m : Int) : Prop
  | together (h : Together a b m) (kind : Kind)
      (heq : coerceNumericPair (.number a n) (.number b m) = .ok (.number kind n, .number kind m))
  | refused (h : ¬ Together a b m) (href : Refused a b m) (fault : Fault)
      (heq : coerceNumericPair (.number a n) (.number b m) = .error fault)
      (hfault : ∀ literal, fault.Permitted literal ↔ literal = true)
  | apart (h : ¬ Together a b m) (href : ¬ Refused a b m) (hne : a ≠ b)
      (heq : coerceNumericPair (.number a n) (.number b m) = .ok (.number a n, .number b m))

theorem pairCases (hn : n ∈ a.range) (hm : m ∈ b.range) : PairCases a b n m := by
  cases hpair : pairCoercion a b with
  | left =>
    obtain ⟨hfixed, hmem⟩ := mem_of_pairCoercion_left hpair hn
    refine .together (by simp [Together, hpair]) b ?_
    simp [coerceNumericPair, hpair, coerceLike, coerceValue_of_mem (.inl hfixed) hmem, Except.map]
  | neither =>
    by_cases hab : a = b
    · subst hab
      exact .together (by simp [Together, hpair]) a (by simp [coerceNumericPair, hpair])
    · exact .apart (by simp [Together, hpair, hab]) (by simp [Refused, hpair]) hab
        (by simp [coerceNumericPair, hpair])
  | right =>
    have hsource : a.fixed = true ∨ b.fixed = false := by
      obtain hfixed | ⟨rfl, rfl⟩ := pairCoercion_right hpair
      · exact .inl hfixed
      · exact .inr rfl
    by_cases hmem : m ∈ a.range
    · refine .together (by simpa [Together, hpair]) a ?_
      simp [coerceNumericPair, hpair, coerceLike, coerceValue_of_mem hsource hmem, Except.map]
    · have htogether : ¬ Together a b m := by simpa [Together, hpair]
      by_cases hfixed : a.fixed = true
      · obtain ⟨fault, heq, hfault⟩ := coerceValue_refused (b := b) hfixed hmem
        refine .refused htogether ⟨hpair, hfixed, hmem⟩ fault ?_ hfault
        simp [coerceNumericPair, hpair, coerceLike, heq, Except.map]
      · have hkept := coerceValue_kept (Bool.eq_false_iff.mpr hfixed) hm (.inr hmem)
        refine .apart htogether (fun href => hfixed href.2.1) ?_ ?_
        · rintro rfl
          exact hmem hm
        · simp [coerceNumericPair, hpair, coerceLike, hkept, Except.map]

/-! ## Soundness of one application -/

theorem checkedArith_cases (kind : Kind) (op : ArithOp) (n m : Int) :
    (∃ fault, checkedArith kind op n m = .error fault ∧ ∀ literal, fault.Permitted literal) ∨
      ∃ k ∈ kind.range, checkedArith kind op n m = .ok (.number kind k) := by
  unfold checkedArith
  split
  · exact .inl ⟨_, rfl, fun _ => trivial⟩
  · split
    · refine .inl ⟨_, rfl, fun _ => ?_⟩
      split <;> trivial
    · split
      · rename_i k hk
        obtain ⟨c, -, hc⟩ := Option.bind_eq_some_iff.mp hk
        exact .inr ⟨k, (IntRange.hold_eq_some hc).2, rfl⟩
      · exact .inl ⟨_, rfl, fun _ => trivial⟩

theorem number_of_checkedArith {op : ArithOp} {value : Value}
    (h : checkedArith kind op n m = .ok value) : ∃ k ∈ kind.range, value = .number kind k := by
  obtain ⟨fault, hfault, -⟩ | ⟨k, hk, hok⟩ := checkedArith_cases kind op n m
  · cases h.symm.trans hfault
  · exact ⟨k, hk, Except.ok.inj (h.symm.trans hok)⟩

theorem Application.sound_of_ok {application : Application} {value : Value}
    (h : application.outcome = .ok value) : application.Sound ↔ application.Decides value := by
  refine ⟨fun hsound => hsound.decides value h, fun hdecides => ⟨by simp [h], ?_⟩⟩
  rw [h]
  rintro _ ⟨⟩
  exact hdecides

theorem Application.sound_of_error {application : Application} {fault : Fault}
    (h : application.outcome = .error fault) :
    application.Sound ↔ fault.Permitted application.literal := by
  refine ⟨fun hsound => hsound.fault fault h, fun hfault => ⟨?_, by simp [h]⟩⟩
  rw [h]
  rintro _ ⟨⟩
  exact hfault

/-- An operation on two operands of one representation is sound. -/
theorem sound_of_checked {application : Application} {op : ArithOp}
    (hdecides : ∀ value, application.Decides value)
    (h : application.outcome = checkedArith kind op n m) : application.Sound := by
  obtain ⟨fault, hfault, hperm⟩ | ⟨k, -, hk⟩ := checkedArith_cases kind op n m
  · exact (Application.sound_of_error (h.trans hfault)).mpr (hperm _)
  · exact (Application.sound_of_ok (h.trans hk)).mpr (hdecides _)

theorem unary_sound_iff {op : UnaryOperator} {value : Value}
    (h : (Application.unary op value).Formed) :
    (Application.unary op value).Sound ↔ (Application.unary op value).Matched := by
  cases op with
  | not =>
    cases value with
    | number kind n => exact False.elim h
    | bool x => exact Application.sound_of_ok rfl
  | negate =>
    cases value with
    | bool x => exact False.elim h
    | number kind n =>
      have hinvalid (h : (Application.unary .negate (.number kind n)).outcome =
          .error .invalidUnary) : ¬ (Application.unary .negate (.number kind n)).Sound :=
        fun hsound => hsound.fault _ h
      match kind with
      | .int | .signed _ =>
        refine iff_of_true ⟨fun fault hfault => ?_, fun _ _ => trivial⟩
          (by simp [Application.Matched])
        simp only [Application.outcome, applyUnary] at hfault
        split at hfault
        · cases hfault
        · cases hfault
          trivial
      | .unsigned .w128 =>
        by_cases hle : n ≤ 2 ^ 127
        · have hok : (Application.unary .negate (.number (.unsigned .w128) n)).outcome =
              .ok (.number (.signed .w128) (-n)) := if_pos hle
          exact iff_of_true ((Application.sound_of_ok hok).mpr trivial) (.inr (.inr ⟨rfl, hle⟩))
        · exact iff_of_false (hinvalid (if_neg hle)) (by rintro (h | ⟨_, h⟩ | ⟨_, h⟩) <;> tauto)
      | .uint | .unsigned .w8 | .unsigned .w16 | .unsigned .w32 | .unsigned .w64 =>
        exact iff_of_false (hinvalid rfl) (by simp [Application.Matched])

/-- An arithmetic operator or an order on two integers: its operands have to be brought
together, or a literal rejected. -/
theorem ordered_sound_iff {application : Application} {op : BinaryOperator} {invalid : Fault}
    (hn : n ∈ a.range) (hm : m ∈ b.range)
    (houtcome : application.outcome = applyBinary op (.number a n) (.number b m))
    (hsame : ∀ kind, application.outcome = evaluateBinary op (.number kind n) (.number kind m) →
      application.Sound)
    (hdiffer : a ≠ b → evaluateBinary op (.number a n) (.number b m) = .error invalid)
    (hinvalid : ¬ invalid.Permitted application.literal) :
    application.Sound ↔ Together a b m ∨ (Refused a b m ∧ application.literal = true) := by
  obtain ⟨htogether, kind, heq⟩ | ⟨hnot, href, fault, heq, hfault⟩ | ⟨hnot, href, hne, heq⟩ :=
    pairCases hn hm
  · exact iff_of_true (hsame kind (by rw [houtcome, applyBinary, heq])) (.inl htogether)
  · rw [Application.sound_of_error (houtcome.trans (by rw [applyBinary, heq])), hfault]
    simp [hnot, href]
  · have hfault : application.outcome = .error invalid := by
      rw [houtcome, applyBinary, heq]
      exact hdiffer hne
    rw [Application.sound_of_error hfault]
    simp [hnot, href, hinvalid]

/-- An equality of two integers: two representations that stay apart are different values. -/
theorem equality_sound_iff {application : Application} {op : BinaryOperator}
    (result : Bool → Bool) (hn : n ∈ a.range) (hm : m ∈ b.range)
    (houtcome : application.outcome = applyBinary op (.number a n) (.number b m))
    (heval : ∀ left right,
      evaluateBinary op left right = .ok (.bool (result (decide (left = right)))))
    (hdecides : ∀ x, application.Decides (.bool (result x)) ↔ x = decide (n = m)) :
    application.Sound ↔
      Together a b m ∨ if Refused a b m then application.literal = true else n ≠ m := by
  obtain ⟨htogether, kind, heq⟩ | ⟨hnot, href, fault, heq, hfault⟩ | ⟨hnot, href, hne, heq⟩ :=
    pairCases hn hm
  · rw [Application.sound_of_ok (houtcome.trans (by rw [applyBinary, heq]; exact heval _ _)),
      hdecides]
    simp [htogether]
  · rw [Application.sound_of_error (houtcome.trans (by rw [applyBinary, heq])), hfault]
    simp [hnot, href]
  · rw [Application.sound_of_ok (houtcome.trans (by rw [applyBinary, heq]; exact heval _ _)),
      hdecides]
    simp [hnot, href, hne]

theorem binary_sound_iff {op : BinaryOperator} {literal : Bool} {left right : Value}
    (h : (Application.binary op literal left right).Formed) :
    (Application.binary op literal left right).Sound ↔
      (Application.binary op literal left right).Matched := by
  cases left with
  | bool x =>
    cases right with
    | number b m => cases op <;> exact False.elim h
    | bool y =>
      cases op with
      | arith op | compare op => exact False.elim h
      | equal | notEqual | and | or =>
        refine iff_of_true ⟨?_, ?_⟩ trivial
        · cases x <;> rintro _ ⟨⟩
        · cases x <;> cases y <;> rintro _ ⟨⟩ <;> trivial
  | number a n =>
    cases right with
    | bool y => cases op <;> exact False.elim h
    | number b m =>
      cases op with
      | and | or => exact False.elim h
      | arith op =>
        refine ordered_sound_iff h.1 h.2 rfl (fun kind hsame => ?_) (fun hne => if_neg hne) id
        exact sound_of_checked (fun _ => trivial) (hsame.trans (if_pos rfl))
      | compare op =>
        refine ordered_sound_iff h.1 h.2 rfl (fun kind hsame => ?_) (fun hne => if_neg hne) id
        exact (Application.sound_of_ok (hsame.trans (if_pos rfl))).mpr trivial
      | equal =>
        refine equality_sound_iff id h.1 h.2 rfl (fun _ _ => rfl) fun x => ?_
        simp [Application.Decides, Value.same]
      | notEqual =>
        refine equality_sound_iff not h.1 h.2 rfl (fun _ _ => ?_) fun x => ?_
        · simp [evaluateBinary]
        · simp [Application.Decides, Value.same]

/-- A compound assignment: a variable's operand has to convert to the variable's
representation, that of a place to be in it already. -/
theorem assign_sound_iff {target : Target} {op : ArithOp} {literal : Bool} {left right : Value}
    (h : (Application.assign target op literal left right).Formed) :
    (Application.assign target op literal left right).Sound ↔
      (Application.assign target op literal left right).Matched := by
  cases left with
  | bool x => cases right <;> exact False.elim h
  | number a n =>
    cases right with
    | bool y => exact False.elim h
    | number b m =>
      have hdiffer (hne : a ≠ b) : evaluateBinary (.arith op) (.number a n) (.number b m) =
          .error (.invalidOperands op) := if_neg hne
      cases target with
      | part root first rest =>
        by_cases hab : a = b
        · exact iff_of_true (sound_of_checked (fun _ => trivial) (if_pos hab)) hab
        · exact iff_of_false (fun hsound => hsound.fault _ (hdiffer hab)) hab
      | whole name =>
        have houtcome (value : Value) (hvalue : coerceValue (.number b m) a = .ok value) :
            (Application.assign (.whole name) op literal (.number a n) (.number b m)).outcome =
              evaluateBinary (.arith op) (.number a n) value := by
          simp [Application.outcome, assignStep, coerceLike, hvalue]
        have hsame (hmem : m ∈ a.range) (hsource : a.fixed = true ∨ b.fixed = false) :
            (Application.assign (.whole name) op literal (.number a n) (.number b m)).Sound :=
          sound_of_checked (fun _ => trivial)
            ((houtcome _ (coerceValue_of_mem hsource hmem)).trans (if_pos rfl))
        by_cases hfixed : a.fixed = true
        · simp only [Application.Matched, hfixed, if_true]
          by_cases hmem : m ∈ a.range
          · exact iff_of_true (hsame hmem (.inl hfixed)) (.inl hmem)
          · obtain ⟨fault, heq, hfault⟩ := coerceValue_refused (b := b) hfixed hmem
            have herror : (Application.assign (.whole name) op literal (.number a n)
                (.number b m)).outcome = .error fault := by
              simp [Application.outcome, assignStep, coerceLike, heq]
            rw [Application.sound_of_error herror, hfault]
            simp [hmem, Application.literal]
        · simp only [Application.Matched, hfixed]
          by_cases hboth : b.fixed = false ∧ m ∈ a.range
          · exact iff_of_true (hsame hboth.2 (.inr hboth.1)) hboth
          · have hkept := coerceValue_kept (Bool.eq_false_iff.mpr hfixed) h.2
              (by simpa [← Bool.not_eq_false, ← not_and_or] using hboth)
            have hne : a ≠ b := by
              rintro rfl
              exact hboth ⟨Bool.eq_false_iff.mpr hfixed, h.2⟩
            exact iff_of_false
              (fun hsound => hsound.fault _ ((houtcome _ hkept).trans (hdiffer hne))) hboth

/-- The operands of an accepted operator suit it exactly if the application is sound. -/
theorem Application.sound_iff_matched {application : Application} (h : application.Formed) :
    application.Sound ↔ application.Matched := by
  cases application with
  | unary op value => exact unary_sound_iff h
  | binary op literal left right => exact binary_sound_iff h
  | assign target op literal left right => exact assign_sound_iff h

end Disp.Arithmetic

import Disp.Constants.Agreement
import Disp.Library.Codec

/-!
# Which constants are sound

A constant of an integer type is sound if its compile-time value is in the range of the type and
is the value of the checked evaluation.  The evaluator never looks at a type, so this holds
exactly where no operation leaves the range of its type and the value does not show the rounding
of an `f32`.
-/

namespace Disp.Constants

open List

open Disp.Arithmetic (Kind)
open Disp.Library.Codec (bind_eq_ok)
open Disp.Library.Obligations
open Disp.Patterns (Registry)
open Disp.TypeChecker

variable {F : Type} {floats : FloatOps F} {registry : Registry} {limits : Limits} {entry : Entry F}
  {ty : Ty} {kind : Kind} {meant : Meant F} {log : List Requirement}
  {exact : Env F (Logged Requirement)} {value : Expr F} {scopes : Scopes F} {steps steps' : Nat}
  {result : ConstValue F} {state state' : Evaluator F} {entries : List (Entry F)}

/-- A constant of an integer type has a value of its type, the one of the checked evaluation. -/
def Sound (constant : Constant F) (entry : Entry F) : Prop :=
  ∀ kind, integerKind entry.ty = some kind → ∃ value : Integer,
    constant.value = .number value ∧ value.toInt ∈ kind.range ∧
      entry.typed = .ok (.number value.toInt)

/-- Every operation of a constant of an integer type, and of the constants that it mentions,
stays in the range of its type. -/
def Entry.InRange (entry : Entry F) : Prop :=
  ∀ kind, integerKind entry.ty = some kind → ∃ value log,
    entry.meaning = some (value, log) ∧ ∀ requirement ∈ log, requirement.InRange

/-- The value of a constant of an integer type is the one without the rounding of `f32`. -/
def Entry.RoundingUnseen (entry : Entry F) : Prop :=
  ∀ kind, integerKind entry.ty = some kind → ∀ value log, entry.meaning = some (value, log) →
    entry.plain = some value

/-! ## One constant -/

/-- What evaluation and the survey have in common about a constant. -/
structure Linked (constant : Constant F) (entry : Entry F) : Prop where
  plain : entry.plain = some constant.value.meant
  realizes : Realizes Requirement.InRange entry.typed entry.meaning
  holds : ∀ ⦃kind meant log⦄, integerKind entry.ty = some kind →
    entry.meaning = some (meant, log) → ∃ n, meant = .number n ∧ .fits kind n ∈ log

theorem meant_eq_number {value : ConstValue F} {n : Int} (h : value.meant = .number n) :
    ∃ integer : Integer, value = .number integer ∧ integer.toInt = n := by
  cases value with
  | number integer =>
    simp only [Value.meant, Value.number.injEq] at h
    exact ⟨integer, rfl, h⟩
  | float _ | string _ | character _ | bool _ | array _ | struct _ _ =>
    simp [Value.meant] at h

theorem Linked.sound_iff {constant : Constant F} (h : Linked constant entry) :
    Sound constant entry ↔ entry.InRange ∧ entry.RoundingUnseen := by
  constructor
  · intro hsound
    refine ⟨fun kind hkind => ?_, fun kind hkind value log hmeaning => ?_⟩
    · obtain ⟨value, -, -, htyped⟩ := hsound kind hkind
      obtain ⟨log, hmeaning, hrange⟩ := (h.realizes _).mp htyped
      exact ⟨_, log, hmeaning, hrange⟩
    · obtain ⟨number, hval, -, htyped⟩ := hsound kind hkind
      obtain ⟨log', hmeaning', -⟩ := (h.realizes _).mp htyped
      obtain ⟨rfl, -⟩ := Prod.mk.inj (Option.some.inj (hmeaning.symm.trans hmeaning'))
      rw [h.plain, hval, Value.meant]
  · rintro ⟨hrange, hunseen⟩ kind hkind
    obtain ⟨meant, log, hmeaning, hall⟩ := hrange kind hkind
    obtain ⟨n, rfl, hfits⟩ := h.holds hkind hmeaning
    have hplain := h.plain.symm.trans (hunseen kind hkind _ _ hmeaning)
    obtain ⟨integer, hval, rfl⟩ := meant_eq_number (Option.some.inj hplain)
    exact ⟨integer, hval, hall _ hfits, (h.realizes _).mpr ⟨log, hmeaning, hall⟩⟩

theorem convert_number {value : Meant F} (hkind : integerKind ty = some kind)
    (h : convert (exactSemantics floats) ty value = some (meant, log)) :
    ∃ n, meant = .number n ∧ .fits kind n ∈ log := by
  unfold convert at h
  rw [hkind] at h
  cases value with
  | number n =>
    cases h
    exact ⟨n, rfl, by simp⟩
  | float _ | string _ | character _ | bool _ | array _ | struct _ _ => cases h

theorem constantAt_number (hkind : integerKind ty = some kind)
    (h : constantAt floats (exactSemantics floats) registry exact ty value = some (meant, log)) :
    ∃ n, meant = .number n ∧ .fits kind n ∈ log := by
  obtain ⟨result, first, later, -, hconvert, rfl⟩ := Logged.bind_eq_some.mp h
  obtain ⟨n, rfl, hfits⟩ := convert_number hkind hconvert
  exact ⟨n, rfl, mem_append_right _ hfits⟩

/-! ## Names in scope -/

/-- The names in scope of evaluation and of the survey. -/
structure InStep (scopes : Scopes F) (known : Known F) : Prop where
  agree : ScopesAgree scopes known.plain known.types
  realizes : EnvRealizes known.checked known.exact

theorem InStep.constant {scopes : Scopes F} {known : Known F} (h : InStep scopes known)
    {constant : Constant F} {entry : Entry F} (hlinked : Linked constant entry) (name : String) :
    InStep ((name, some constant.value) :: scopes) ((name, some entry) :: known) where
  agree := by
    intro key value hval hconst
    change (lookup key ((name, some entry.ty) :: known.types)).bind id |>.isSome at hconst
    change (lookup key ((name, entry.plain) :: known.plain)).bind id = some value.meant
    rw [lookupValue, lookup_cons] at hval
    rw [lookup_cons] at hconst ⊢
    cases hkey : key == name with
    | true =>
      simp only [hkey] at hval ⊢
      cases hval
      exact hlinked.plain
    | false =>
      simp only [hkey] at hval hconst ⊢
      exact h.agree hval hconst
  realizes := .cons ⟨rfl, rfl, hlinked.realizes⟩ h.realizes

theorem InStep.hide {known : Known F} (h : InStep scopes known) (name : String) :
    InStep scopes ((name, none) :: known) where
  agree := by
    intro key value hval hconst
    change (lookup key ((name, none) :: known.types)).bind id |>.isSome at hconst
    change (lookup key ((name, none) :: known.plain)).bind id = some value.meant
    rw [lookup_cons] at hconst ⊢
    cases hkey : key == name with
    | true => simp [hkey] at hconst
    | false =>
      simp only [hkey] at hconst ⊢
      exact h.agree hval hconst
  realizes := .cons ⟨rfl, trivial⟩ h.realizes

theorem InStep.shadow {known : Known F} (h : InStep scopes known) (name : String) :
    InStep ((name, none) :: scopes) known where
  agree := by
    intro key value hval hconst
    rw [lookupValue, lookup_cons] at hval
    split at hval
    · cases hval
    · exact h.agree hval hconst
  realizes := h.realizes

theorem InStep.hideAll {known : Known F} (h : InStep scopes known) (names : List String) :
    InStep scopes (plainNames names ++ known) := by
  induction names with
  | nil => exact h
  | cons name names ih => exact ih.hide name

theorem InStep.shadowAll {known : Known F} (h : InStep scopes known) (names : List String) :
    InStep (shadowed names ++ scopes) known := by
  induction names with
  | nil => exact h
  | cons name names ih => exact ih.shadow name

/-! ## Programs -/

theorem evalConstant_inv
    (h : evalConstant floats limits scopes value state = .ok (result, state')) :
    (∃ steps, eval floats limits scopes 0 value state.steps = .ok (result, steps)) ∧
      state'.constants = state.constants := by
  unfold evalConstant at h
  split at h
  · rename_i heval
    cases h
    exact ⟨⟨_, heval⟩, rfl⟩
  · cases h

theorem chargeValue_constants {value : ConstValue F}
    (h : chargeValue limits value state = .ok ((), state')) :
    state'.constants = state.constants := by
  unfold chargeValue at h
  simp only at h
  split at h
  · cases h
  · split at h
    · cases h
    · cases h
      rfl

theorem constantType_inv {types : Types} {annotated : Option Ty}
    (h : constantType registry types annotated value = .ok ty) :
    isConstantExpression types value = true := by
  obtain ⟨inferred, -, h⟩ := bind_eq_ok h
  obtain ⟨declared, -, h⟩ := bind_eq_ok h
  split at h
  · cases h
  · split at h
    · assumption
    · cases h

theorem constant_linked {known : Known F} (h : InStep scopes known)
    {function name : String} {annotated : Option Ty}
    (heval : eval floats limits scopes 0 value steps = .ok (result, steps'))
    (hentry : constantEntry floats registry known name annotated value = .ok entry) :
    Linked { function, name, value := result } entry := by
  obtain ⟨ty, hty, hentry⟩ := bind_eq_ok hentry
  cases hentry
  exact {
    plain := eval_plain h.agree 0 value (constantType_inv hty) heval
    realizes := realizes_constantAt h.realizes ty value
    holds := fun _ _ _ hkind hmeaning => constantAt_number hkind hmeaning }

/-- What a visit adds to the report, beside the entries of the survey. -/
def Adds (before after : Evaluator F) (entries : List (Entry F)) : Prop :=
  ∃ constants, after.constants = before.constants ++ constants ∧
    List.Forall₂ (Linked) constants entries

theorem Adds.nil (state : Evaluator F) : Adds state state [] :=
  ⟨[], by simp, .nil⟩

theorem Adds.append {first second third : Evaluator F} {later : List (Entry F)}
    (h : Adds first second entries) (h' : Adds second third later) :
    Adds first third (entries ++ later) := by
  obtain ⟨constants, heq, hall⟩ := h
  obtain ⟨constants', heq', hall'⟩ := h'
  exact ⟨constants ++ constants', by rw [heq', heq, append_assoc], rel_append hall hall'⟩

mutual

theorem visitItem_adds {function : String} {scopes scopes' : Scopes F} {known known' : Known F}
    {state state' : Evaluator F} {entries : List (Entry F)} (h : InStep scopes known)
    (item : Item F)
    (hvisit : visitItem floats limits function scopes item state = .ok (scopes', state'))
    (hsurvey : surveyItem floats registry known item = .ok (known', entries)) :
    Adds state state' entries ∧ InStep scopes' known' := by
  match item with
  | .constant name annotated value =>
    obtain ⟨entry, hentry, hsurvey⟩ := bind_eq_ok hsurvey
    cases hsurvey
    obtain ⟨⟨result, second⟩, heval, hvisit⟩ := bind_eq_ok hvisit
    obtain ⟨⟨⟨⟩, third⟩, hcharge, hvisit⟩ := bind_eq_ok hvisit
    cases hvisit
    obtain ⟨⟨steps, heval⟩, hsecond⟩ := evalConstant_inv heval
    have hlinked : Linked { function, name, value := result } entry :=
      constant_linked h heval hentry
    refine ⟨⟨_, ?_, .cons hlinked .nil⟩, h.constant hlinked name⟩
    rw [chargeValue_constants hcharge, hsecond]
  | .binding name closures =>
    obtain ⟨entries, hclosures, hsurvey⟩ := bind_eq_ok hsurvey
    cases hsurvey
    obtain ⟨⟨⟨⟩, second⟩, hitems, hvisit⟩ := bind_eq_ok hvisit
    cases hvisit
    exact ⟨visitItems_adds (h.shadow name) closures hitems hclosures, (h.shadow name).hide name⟩
  | .assigned name =>
    cases hvisit
    cases hsurvey
    exact ⟨Adds.nil _, h.hide name⟩
  | .scope names patternNames items =>
    obtain ⟨entries, hinner, hsurvey⟩ := bind_eq_ok hsurvey
    cases hsurvey
    obtain ⟨⟨⟨⟩, second⟩, hitems, hvisit⟩ := bind_eq_ok hvisit
    cases hvisit
    have hscope := (h.hideAll (names ++ patternNames)).shadowAll names
    exact ⟨visitItems_adds hscope items hitems hinner, h⟩

theorem visitItems_adds {function : String} {scopes : Scopes F} {known : Known F}
    {state state' : Evaluator F} {entries : List (Entry F)} (h : InStep scopes known)
    (items : List (Item F))
    (hvisit : visitItems floats limits function scopes items state = .ok ((), state'))
    (hsurvey : surveyItems floats registry known items = .ok entries) :
    Adds state state' entries := by
  match items with
  | [] =>
    cases hvisit
    cases hsurvey
    exact Adds.nil _
  | item :: items =>
    obtain ⟨⟨known', entries⟩, hitem, hsurvey⟩ := bind_eq_ok hsurvey
    obtain ⟨later, hlater, hsurvey⟩ := bind_eq_ok hsurvey
    cases hsurvey
    obtain ⟨⟨scopes', second⟩, hfirst, hrest⟩ := bind_eq_ok hvisit
    obtain ⟨hadds, hnext⟩ := visitItem_adds h item hfirst hitem
    exact hadds.append (visitItems_adds hnext items hrest hlater)

end

theorem visitBodies_adds {functions : List (Function F)}
    (hvisit : visitBodies floats limits functions state = .ok ((), state'))
    (hsurvey : surveyBodies floats registry functions = .ok entries) :
    Adds state state' entries := by
  induction functions generalizing state entries with
  | nil =>
    cases hvisit
    cases hsurvey
    exact Adds.nil _
  | cons function functions ih =>
    obtain ⟨first, hbody, hsurvey⟩ := bind_eq_ok hsurvey
    obtain ⟨later, hlater, hsurvey⟩ := bind_eq_ok hsurvey
    cases hsurvey
    obtain ⟨⟨⟨⟩, second⟩, hfirst, hrest⟩ := bind_eq_ok hvisit
    have hempty : InStep ([] : Scopes F) [] := {
      agree := fun _ _ hval => by cases hval
      realizes := .nil }
    have hparams := (hempty.hideAll function.parameters).shadowAll function.parameters
    simp only [append_nil] at hparams
    exact (visitItems_adds hparams function.body hfirst hbody).append (ih hrest hlater)

/-- Constants that mention no float. -/
def noFloats : FloatOps Unit where
  arith _ _ _ := ()
  negate _ := ()
  equal _ _ := true
  holds _ _ _ := true
  single _ := ()

def noTypes : Registry where
  structs := []
  enums := []
  structName _ := ""
  enumName _ := ""
  variantsOnce := by simp

def mainProgram {F : Type} (body : List (Item F)) : Program F where
  functions := [({ name := "main", parameters := [], body }, false)]
  implementations := []

/-- `const base = 7  const answer = base * 6`. -/
def answerProgram : Program Unit :=
  mainProgram [.constant "base" none (.integer 7),
    .constant "answer" none (.binary (.identifier "base") (.arith .multiply) (.integer 6))]

def answerEntries : List (Entry Unit) :=
  [{ name := "base", ty := .int, typed := .ok (.number 7)
     meaning := some (.number 7, [.fits .int 7]), plain := some (.number 7) },
   { name := "answer", ty := .int, typed := .ok (.number 42)
     meaning := some (.number 42, [.fits .int 7, .fits .int 7, .fits .int 6,
       .operation .int .multiply 7 6, .fits .int 42]), plain := some (.number 42) }]

def answerReport : Report Unit where
  constants := [⟨"main", "base", .number (.positive 7)⟩, ⟨"main", "answer", .number (.positive 42)⟩]
  steps := 4

theorem answer_survey : survey noFloats noTypes answerProgram = .ok answerEntries := rfl

theorem answer_report : evaluate noFloats answerProgram = .ok answerReport := rfl

theorem answer_inRange : ∀ entry ∈ answerEntries, entry.InRange := by
  intro entry hentry kind _
  simp only [answerEntries, mem_cons, not_mem_nil, or_false] at hentry
  rcases hentry with rfl | rfl
  all_goals
    refine ⟨_, _, rfl, ?_⟩
    simp only [mem_cons, not_mem_nil, or_false, forall_eq_or_imp, forall_eq, Requirement.InRange]
    decide

theorem answer_roundingUnseen : ∀ entry ∈ answerEntries, entry.RoundingUnseen := by
  intro entry hentry kind _ value log hmeaning
  simp only [answerEntries, mem_cons, not_mem_nil, or_false] at hentry
  rcases hentry with rfl | rfl <;> cases hmeaning <;> rfl

/-- `const big = 9223372036854775807 + 1  const a: i8 = 100  const b: i8 = a + a`. -/
def overflowProgram : Program Unit :=
  mainProgram [
    .constant "big" none (.binary (.integer 9223372036854775807) (.arith .add) (.integer 1)),
    .constant "a" (some (.signed 8)) (.integer 100),
    .constant "b" (some (.signed 8)) (.binary (.identifier "a") (.arith .add) (.identifier "a"))]

/-- Floats without a fraction below `2 ^ 25`, where an `f32` keeps 24 bits. -/
def wholeFloats : FloatOps Int where
  arith op a b := (exactArith op a b).getD 0
  negate a := -a
  equal a b := decide (a = b)
  holds op a b := op.holds a b
  single a := if a.natAbs ≤ 2 ^ 24 then a else 2 * a.tdiv 2

/-- `const a: f32 = 16777217.0  const same = match a == 16777216.0 { true => 1, false => 2 }`. -/
def roundingProgram : Program Int :=
  mainProgram [
    .constant "a" (some (.app .float32 [])) (.float 16777217),
    .constant "same" none (.matchArms (.binary (.identifier "a") .equal (.float 16777216))
      [(.bool true, none, .integer 1), (.bool false, none, .integer 2)])]

end Disp.Constants

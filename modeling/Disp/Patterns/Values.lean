import Disp.Arithmetic.Values
import Disp.Library.Codec
import Disp.Library.IndexedSearch
import Disp.Patterns.Coverage

/-!
# Values and patterns at run time

The interpreter's values as far as patterns look at them, its `pattern_matches`, and the
values of a type.  A coverage pattern that covers a value belongs to a pattern that matches
it.
-/

namespace Disp.Patterns

open List

open Disp.Arithmetic (Kind)
open Disp.Library.Codec (bind_eq_ok)
open Disp.Library.IndexedSearch (lookup_of_mem mem_of_lookup)
open Disp.Library.PatternMatrix (Covers CoversAll Fits coversAll_cons)
open Disp.TypeChecker

variable {head : CoverageConstructor} {declared : List (String × Ty)} {rest : Bool}
  {registry : Registry} {fields : List (String × Pattern)} {expected : Ty} {checked : Checked}
  {variant owner : String} {tys : List Ty}

/-- A struct holds its fields in the order of their names. -/
inductive Value
  | number (kind : Kind) (n : Int)
  | bool (value : Bool)
  | character (value : Char)
  | string (value : String)
  | struct (typeName : String) (fields : List (String × Value))
  | enum (typeName variant : String) (payload : List Value)
  /-- Any other value. -/
  | other (id : Nat)

abbrev Bindings := List (String × Value)

mutual

/-- `pattern_matches`: the bindings of a match, the last one first. -/
def patternMatches : Pattern → Value → Bindings → Option Bindings
  | .wildcard, _, bindings => some bindings
  | .binding name, value, bindings => some ((name, value) :: bindings)
  | .integer pattern, .number _ n, bindings => if n = pattern.val then some bindings else none
  | .negativeInteger pattern, .number kind n, bindings =>
    match kind with
    | .int | .signed _ => if n = -pattern.val then some bindings else none
    | .uint | .unsigned _ => if pattern.val = 0 ∧ n = 0 then some bindings else none
  | .string pattern, .string value, bindings => if value = pattern then some bindings else none
  | .character pattern, .character value, bindings =>
    if value = pattern then some bindings else none
  | .bool pattern, .bool value, bindings => if value = pattern then some bindings else none
  | .or alternatives, value, bindings => anyMatches alternatives value bindings
  | .struct typeName fields _, .struct valueType values, bindings =>
    if valueType = typeName then fieldsMatch fields values bindings else none
  | .variant typeName variant arguments, .enum valueType valueVariant payload, bindings =>
    if valueVariant ≠ variant ∨ (∃ name ∈ typeName, name ≠ valueType) ∨
        arguments.length ≠ payload.length then
      none
    else
      argumentsMatch arguments payload bindings
  | _, _, _ => none

def anyMatches : List Pattern → Value → Bindings → Option Bindings
  | [], _, _ => none
  | alternative :: alternatives, value, bindings =>
    match patternMatches alternative value bindings with
    | some bindings => some bindings
    | none => anyMatches alternatives value bindings

def fieldsMatch : List (String × Pattern) → List (String × Value) → Bindings → Option Bindings
  | [], _, bindings => some bindings
  | (name, pattern) :: fields, values, bindings =>
    match values.lookup name with
    | some value => (patternMatches pattern value bindings).bind (fieldsMatch fields values)
    | none => none

def argumentsMatch : List Pattern → List Value → Bindings → Option Bindings
  | pattern :: arguments, value :: values, bindings =>
    (patternMatches pattern value bindings).bind (argumentsMatch arguments values)
  | _, _, bindings => some bindings

end

def Matches (pattern : Pattern) (value : Value) : Prop :=
  (patternMatches pattern value []).isSome

/-! ## Values of a type -/

variable {parts : List Value}

def known : Ty → Bool
  | .app .bool _ | .app .option [_] | .app .result [_, _] => true
  | .app (.struct _) _ | .app (.enum _) _ => true
  | _ => false

/-- The values of a type; of the types that coverage knows nothing of, any value. -/
inductive HasType (registry : Registry) : Value → Ty → Prop
  | bool (value : Bool) (arguments : List Ty) :
      HasType registry (.bool value) (.app .bool arguments)
  | some {value : Value} {ty : Ty} : HasType registry value ty →
      HasType registry (.enum "Option" "Some" [value]) (.app .option [ty])
  | none (ty : Ty) : HasType registry (.enum "Option" "None" []) (.app .option [ty])
  | ok {value : Value} {ty error : Ty} : HasType registry value ty →
      HasType registry (.enum "Result" "Ok" [value]) (.app .result [ty, error])
  | err {value : Value} {ok ty : Ty} : HasType registry value ty →
      HasType registry (.enum "Result" "Err" [value]) (.app .result [ok, ty])
  | struct {id : Nat} {arguments : List Ty} {info : StructInfo}
      {fields : List (String × Value)} : registry.structs.lookup id = Option.some info →
      fields.map Prod.fst = (sortByName info.fields).map Prod.fst →
      (∀ pair ∈ fields.zip (sortByName info.fields), HasType registry pair.1.2
        (substitute (info.generics.zip arguments) pair.2.2)) →
      HasType registry (.struct (registry.structName id) fields) (.app (.struct id) arguments)
  | enum {id : Nat} {arguments : List Ty} {info : EnumInfo} {variant : String}
      {payload : List Value} {tys : List Ty} : registry.enums.lookup id = Option.some info →
      (variant, tys) ∈ info.variants → payload.length = tys.length →
      (∀ pair ∈ payload.zip tys, HasType registry pair.1
        (substitute (info.generics.zip arguments) pair.2)) →
      HasType registry (.enum (registry.enumName id) variant payload) (.app (.enum id) arguments)
  | other {value : Value} {ty : Ty} : known ty = false → HasType registry value ty

/-- The constructor of a value and its parts; a negative number has a signed
representation. -/
def view : Value → Option (CoverageConstructor × List Value)
  | .number kind n =>
    if 0 ≤ n then Option.some (.integer n.toNat, [])
    else
      match kind with
      | .int | .signed _ => Option.some (.negativeInteger n, [])
      | .uint | .unsigned _ => Option.none
  | .bool value => Option.some (.bool value, [])
  | .character value => Option.some (.character value, [])
  | .string value => Option.some (.string value, [])
  | .struct typeName fields => Option.some (.struct typeName, fields.map Prod.snd)
  | .enum _ variant payload => Option.some (.variant variant, payload)
  | .other _ => Option.none

/-! ## Coverage and matching -/

theorem view_number {kind : Kind} {n : Int}
    (h : view (.number kind n) = Option.some (head, parts)) :
    (∃ m : Nat, head = .integer m ∧ n = m) ∨
      head = .negativeInteger n ∧ (kind = .int ∨ ∃ width, kind = .signed width) := by
  unfold view at h
  by_cases hn : 0 ≤ n
  · simp only [hn] at h
    cases h
    exact .inl ⟨n.toNat, rfl, (Int.toNat_of_nonneg hn).symm⟩
  · simp only [hn] at h
    cases kind <;> cases h <;> simp

/-- The value that a constructor stands for. -/
def literalValue : CoverageConstructor → Option Value
  | .string value => some (.string value)
  | .character value => some (.character value)
  | .bool value => some (.bool value)
  | _ => none

theorem eq_literalValue {value literal : Value} (hview : view value = some (head, parts))
    (h : literalValue head = some literal) : value = literal := by
  cases value with
  | number kind n =>
    rcases view_number hview with ⟨m, rfl, -⟩ | ⟨rfl, -⟩ <;> cases h
  | bool | character | string =>
    cases hview
    exact Option.some.inj h
  | struct | enum =>
    cases hview
    cases h
  | other => cases hview

/-! ### Fields -/

/-- The names in a struct pattern are declared, and each is given once. -/
theorem checkProvided_inv {typeName : String} {provided fields : List String}
    (h : checkProvided typeName declared rest provided fields = .ok ()) :
    (∀ field ∈ fields, (declared.lookup field).isSome) ∧ fields.Nodup ∧
      ∀ field ∈ fields, field ∉ provided := by
  induction fields generalizing provided with
  | nil => simp
  | cons field fields ih =>
    rw [checkProvided] at h
    split_ifs at h with hunknown hagain
    obtain ⟨hdecl, hnodup, hfresh⟩ := ih h
    have hknown : (declared.lookup field).isSome := by
      simpa [Option.isNone_iff_eq_none] using hunknown
    have hnew : field ∉ provided := by simpa using hagain
    refine ⟨?_, ?_, ?_⟩
    · intro other hother
      rcases mem_cons.mp hother with rfl | hother
      · exact hknown
      · exact hdecl other hother
    · refine nodup_cons.mpr ⟨fun hmem => ?_, hnodup⟩
      exact hfresh field hmem mem_cons_self
    · intro other hother
      rcases mem_cons.mp hother with rfl | hother
      · exact hnew
      · exact fun hmem => hfresh other hother (mem_cons_of_mem _ hmem)

theorem checkStruct_inv {typeName : String}
    (h : checkPattern registry (.struct typeName fields rest) expected = .ok checked) :
    ∃ id arguments info named, expected = .app (.struct id) arguments ∧
      registry.structs.lookup id = some info ∧ registry.structName id = typeName ∧
      checkProvided typeName info.fields rest [] (fields.map Prod.fst) = .ok () ∧
      checkNamed (checkFields registry fields) (info.generics.zip arguments)
        (sortByName info.fields) = .ok named ∧
      checked = (.constructor (.struct typeName) named.1, named.2) := by
  rw [checkPattern] at h
  unfold checkStruct at h
  split at h
  · split at h
    · rename_i arguments _ info hinfo
      split_ifs at h with hname
      obtain ⟨_, hprovided, h⟩ := bind_eq_ok h
      obtain ⟨named, hnamed, h⟩ := bind_eq_ok h
      cases h
      exact ⟨_, arguments, info, named, rfl, hinfo, not_not.mp hname, hprovided, hnamed, rfl⟩
    · cases h
  · cases h

theorem mem_sortByName {α : Type} (entries : List (String × α)) (entry : String × α) :
    entry ∈ sortByName entries ↔ entry ∈ entries :=
  mem_mergeSort

theorem checkFields_eq_map (registry : Registry) (fields : List (String × Pattern)) :
    checkFields registry fields =
      fields.map fun field => (field.1, checkPattern registry field.2) := by
  induction fields with
  | nil => rfl
  | cons field fields ih => rw [checkFields, ih, map_cons]

theorem lookup_checkFields (hnodup : (fields.map Prod.fst).Nodup) {field : String × Pattern}
    (hmem : field ∈ fields) :
    (checkFields registry fields).lookup field.1 = some (checkPattern registry field.2) := by
  rw [checkFields_eq_map]
  exact @lookup_of_mem _ _ _ _ _ (by rwa [map_map]) (field.1, checkPattern registry field.2)
    (mem_map_of_mem hmem)

/-- A field that a struct pattern names, at its position among the fields. -/
theorem checkNamed_field {checks : List (String × (Ty → Except PatternError Checked))}
    {substitutions : Substitutions} {patterns : List CoveragePattern} {bound : List (String × Ty)}
    (hcheck : checkNamed checks substitutions declared = .ok (patterns, bound))
    {fields : List (String × Value)} (hnames : fields.map Prod.fst = declared.map Prod.fst)
    (htyped : ∀ pair ∈ fields.zip declared,
      HasType registry pair.1.2 (substitute substitutions pair.2.2))
    (hcovers : CoversAll view patterns (fields.map Prod.snd)) {name : String}
    {check : Ty → Except PatternError Checked} (hname : checks.lookup name = some check)
    (hdecl : name ∈ declared.map Prod.fst) :
    ∃ value ty checked, fields.lookup name = some value ∧ check ty = .ok checked ∧
      Covers view checked.1 value ∧ HasType registry value ty := by
  induction declared generalizing patterns bound fields with
  | nil => cases hdecl
  | cons field declared ih =>
    obtain ⟨declaredName, ty⟩ := field
    cases fields with
    | nil => cases hnames
    | cons first fields =>
      obtain ⟨fieldName, value⟩ := first
      obtain ⟨rfl, hrestNames⟩ : fieldName = declaredName ∧
          fields.map Prod.fst = declared.map Prod.fst := by simpa using hnames
      obtain ⟨checked, hchecked, hcheck⟩ := bind_eq_ok hcheck
      obtain ⟨rest, hrest, hcheck⟩ := bind_eq_ok hcheck
      cases hcheck
      simp only [zip_cons_cons, mem_cons, forall_eq_or_imp] at htyped
      rw [map_cons, coversAll_cons] at hcovers
      by_cases heq : name = fieldName
      · subst heq
        simp only [checkField, hname] at hchecked
        exact ⟨value, _, checked, by simp, hchecked, hcovers.1, htyped.1⟩
      · have hmem : name ∈ declared.map Prod.fst := by simpa [heq] using hdecl
        rw [lookup_cons, beq_false_of_ne heq]
        exact ih hrest hrestNames htyped.2 hcovers.2 hmem

/-! ### Variants -/

variable {typeName : Option String}

theorem ownedPayload_inv {payload : Option (List Ty)}
    (h : ownedPayload typeName variant expected owner payload = .ok tys) :
    (∀ name ∈ typeName, name = owner) ∧ payload = some tys := by
  unfold ownedPayload at h
  split at h
  · cases h
  · rename_i hfilter
    cases h
    refine ⟨fun name hname => ?_, rfl⟩
    obtain rfl := hname
    simpa using hfilter
  · cases h

theorem checkVariant_inv {arguments : List Pattern}
    (h : checkPattern registry (.variant typeName variant arguments) expected = .ok checked) :
    ∃ tys inner, variantPayload registry typeName variant expected = .ok tys ∧
      tys.length = arguments.length ∧ checkArguments registry arguments tys = .ok inner ∧
      checked = (.constructor (.variant variant) inner.1, inner.2) := by
  obtain ⟨tys, hpay, h⟩ := bind_eq_ok h
  split_ifs at h with hcount
  obtain ⟨inner, hinner, h⟩ := bind_eq_ok h
  cases h
  exact ⟨tys, inner, hpay, not_not.mp hcount, hinner, rfl⟩

/-- A value of the variant of a pattern has a payload of the types the pattern is checked
against. -/
theorem variantPayload_typed {ty : Ty} {payload : List Value}
    (h : variantPayload registry typeName variant ty = .ok tys)
    (htyped : HasType registry (.enum owner variant payload) ty) :
    (∀ name ∈ typeName, name = owner) ∧ payload.length = tys.length ∧
      ∀ pair ∈ payload.zip tys, HasType registry pair.1 pair.2 := by
  cases htyped with
  | some hval | ok hval | err hval =>
    obtain ⟨howner, htys⟩ := ownedPayload_inv h
    cases htys
    exact ⟨howner, rfl, by simpa using hval⟩
  | none =>
    obtain ⟨howner, htys⟩ := ownedPayload_inv h
    cases htys
    exact ⟨howner, rfl, by simp⟩
  | enum hinfo hvariant hlen hpay =>
    simp only [variantPayload, hinfo] at h
    obtain ⟨howner, htys⟩ := ownedPayload_inv h
    rw [lookup_of_mem (registry.variantsOnce _ (mem_of_lookup hinfo)) hvariant] at htys
    cases htys
    refine ⟨howner, by simpa using hlen, fun pair hpair => ?_⟩
    rw [zip_map_right, mem_map] at hpair
    obtain ⟨pair, hpair, rfl⟩ := hpair
    exact hpay pair hpair
  | other hknown =>
    unfold variantPayload at h
    split at h
    · cases hknown
    · cases hknown
    · cases hknown
    · cases h

/-! ### Patterns -/

mutual

/-- A pattern matches what its coverage pattern covers. -/
theorem matches_of_covers (pattern : Pattern) {ty : Ty} {checked : Checked}
    (hcheck : checkPattern registry pattern ty = .ok checked) {value : Value}
    (htyped : HasType registry value ty) (hcovers : Covers view checked.1 value)
    (bindings : Bindings) : (patternMatches pattern value bindings).isSome := by
  match pattern with
  | .wildcard | .binding _ => simp [patternMatches]
  | .or _ => cases hcheck
  | .integer m =>
    obtain ⟨-, -, h⟩ := bind_eq_ok hcheck
    cases h
    obtain ⟨parts, hview, -⟩ := hcovers
    cases value with
    | number kind n =>
      rcases view_number hview with ⟨k, hhead, rfl⟩ | ⟨hhead, -⟩ <;> cases hhead
      simp [patternMatches]
    | _ => simp [view] at hview
  | .negativeInteger m =>
    rw [checkPattern] at hcheck
    split_ifs at hcheck
    obtain ⟨-, -, h⟩ := bind_eq_ok hcheck
    cases h
    obtain ⟨parts, hview, -⟩ := hcovers
    cases value with
    | number kind n =>
      rcases view_number hview with ⟨k, hhead, rfl⟩ | ⟨hhead, rfl | ⟨width, rfl⟩⟩ <;>
        cases hhead <;> simp [patternMatches]
    | _ => simp [view] at hview
  | .string _ | .character _ | .bool _ =>
    obtain ⟨-, -, h⟩ := bind_eq_ok hcheck
    cases h
    obtain ⟨parts, hview, -⟩ := hcovers
    obtain rfl := eq_literalValue hview rfl
    simp [patternMatches]
  | .struct typeName fields rest =>
    obtain ⟨id, tyArguments, info, named, rfl, hinfo, rfl, hprovided, hnamed, rfl⟩ :=
      checkStruct_inv hcheck
    obtain ⟨hdecl, hnodup, -⟩ := checkProvided_inv hprovided
    obtain ⟨parts, hview, hparts⟩ := hcovers
    cases htyped with
    | other hknown => cases hknown
    | struct hinfo' hnames hfields =>
      obtain rfl : info = _ := Option.some.inj (hinfo.symm.trans hinfo')
      cases hview
      rw [patternMatches, if_pos rfl]
      refine fieldsMatch_of_covers fields (fun field hfield => ?_) bindings
      refine checkNamed_field hnamed hnames hfields hparts (lookup_checkFields hnodup hfield) ?_
      obtain ⟨ty, hty⟩ := Option.isSome_iff_exists.mp (hdecl field.1 (mem_map_of_mem hfield))
      exact mem_map.mpr ⟨_, (mem_sortByName _ _).mpr (mem_of_lookup hty), rfl⟩
  | .variant typeName variant arguments =>
    obtain ⟨tys, inner, hpay, hcount, hinner, rfl⟩ := checkVariant_inv hcheck
    obtain ⟨parts, hview, hparts⟩ := hcovers
    cases value with
    | enum owner valueVariant payload =>
      cases hview
      obtain ⟨howner, hlen, htypes⟩ := variantPayload_typed hpay htyped
      have hwrong : ¬ ∃ name ∈ typeName, name ≠ owner := by
        rintro ⟨name, hname, hne⟩
        exact hne (howner name hname)
      simp only [patternMatches, ne_eq, false_or, hwrong, hlen.trans hcount]
      exact argumentsMatch_of_covers arguments hinner hcount hlen htypes hparts bindings
    | number kind n => rcases view_number hview with ⟨m, hhead, -⟩ | ⟨hhead, -⟩ <;> cases hhead
    | _ => simp [view] at hview

theorem fieldsMatch_of_covers (fields : List (String × Pattern)) {values : List (String × Value)}
    (h : ∀ field ∈ fields, ∃ value ty checked, values.lookup field.1 = some value ∧
      checkPattern registry field.2 ty = .ok checked ∧ Covers view checked.1 value ∧
      HasType registry value ty) (bindings : Bindings) :
    (fieldsMatch fields values bindings).isSome := by
  match fields with
  | [] => simp [fieldsMatch]
  | (name, pattern) :: fields =>
    obtain ⟨value, ty, checked, hlook, hcheck, hcovers, htyped⟩ := h _ mem_cons_self
    obtain ⟨matched, hmatch⟩ := Option.isSome_iff_exists.mp
      (matches_of_covers pattern hcheck htyped hcovers bindings)
    simp only [fieldsMatch, hlook, hmatch]
    exact fieldsMatch_of_covers fields (fun field hfield => h field (mem_cons_of_mem _ hfield))
      matched

theorem argumentsMatch_of_covers (arguments : List Pattern) {tys : List Ty}
    {checked : List CoveragePattern × List (String × Ty)}
    (hcheck : checkArguments registry arguments tys = .ok checked)
    (hcount : tys.length = arguments.length) {values : List Value}
    (hlen : values.length = tys.length)
    (htyped : ∀ pair ∈ values.zip tys, HasType registry pair.1 pair.2)
    (hcovers : CoversAll view checked.1 values) (bindings : Bindings) :
    (argumentsMatch arguments values bindings).isSome := by
  match arguments, tys, values with
  | [], _, _ => simp [argumentsMatch]
  | pattern :: arguments, ty :: tys, value :: values =>
    obtain ⟨first, hfirst, hcheck⟩ := bind_eq_ok hcheck
    obtain ⟨rest, hrest, hcheck⟩ := bind_eq_ok hcheck
    cases hcheck
    simp only [zip_cons_cons, mem_cons, forall_eq_or_imp] at htyped
    rw [coversAll_cons] at hcovers
    obtain ⟨matched, hmatch⟩ := Option.isSome_iff_exists.mp
      (matches_of_covers pattern hfirst htyped.1 hcovers.1 bindings)
    simp only [argumentsMatch, hmatch]
    exact argumentsMatch_of_covers arguments hrest (Nat.succ.inj hcount) (Nat.succ.inj hlen)
      htyped.2 hcovers.2 matched

end

end Disp.Patterns

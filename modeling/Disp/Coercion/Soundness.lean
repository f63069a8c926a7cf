import Disp.Coercion.Values
import Disp.Library.IndexedSearch
import Disp.TypeChecker.Matching
import Mathlib.Data.List.Zip

/-!
# Assignment compatibility and coercion

Where `types_compatible` accepts a type for another one, a value reaches `coerce_value` with
the name of the expected type.  It becomes a well-formed value of that type when the name is
one of a fixed width or of a float; under any other name it stays as it is, so the values of
the actual type must be values of the expected one already.
-/

namespace Disp.Coercion

open List

open Disp.Arithmetic (Kind Width)
open Disp.Dispatch (TypeName TypeHead TypeQualifier Program builtinTypes resolveDeclared
  resolveHead resolveType)
open Disp.Library.IndexedSearch (mem_of_lookup)
open Disp.Library.MachineInt Disp.TypeChecker

variable {shape : Form} {program : Program} {generics : List String} {name : String} {ty : Ty}
  {goal : Target} {declarations : Declarations} {parameters : String → Value Unit Unit → Prop}

section

variable {F64 F32 : Type} (declarations : Declarations)
  (parameters : String → Value F64 F32 → Prop)

/-- Every value of the one type is a value of the other. -/
def Included (actual expected : Ty) : Prop :=
  ∀ value, HasType declarations parameters value actual →
    HasType declarations parameters value expected

def Empty (ty : Ty) : Prop := ∀ value, ¬ HasType declarations parameters value ty

/-- One level of the comparison of two types whose values need no conversion; `below` compares
their parts.  The variants of a struct or of an enum are those of its declaration. -/
inductive KeptBy (below : Ty → Ty → Prop) : Ty → Ty → Prop
  | empty {expected actual : Ty} : Empty declarations parameters actual →
      KeptBy below expected actual
  | parameter {name : String} {expected : Ty} :
      (∀ value, parameters name value → HasType declarations parameters value expected) →
      KeptBy below expected (.generic name)
  | asParameter {name : String} {actual : Ty} :
      (∀ value, HasType declarations parameters value actual → parameters name value) →
      KeptBy below (.generic name) actual
  | number {c d : Con} : form d = some .number → (∀ kind n, Holds d kind n → Holds c kind n) →
      KeptBy below (.app c []) (.app d [])
  | float {c d : Con} : form c = some .float → form d = some .float →
      KeptBy below (.app c []) (.app d [])
  | float32 : KeptBy below (.app .float32 []) (.app .float32 [])
  | text {c d : Con} : form c = some .text → form d = some .text →
      KeptBy below (.app c []) (.app d [])
  | atom {con : Con} : form con = some .atom → KeptBy below (.app con []) (.app con [])
  | container {c d : Con} {expected actual : Ty} : form d = some .container → ShownAs d c →
      (d ≠ .array 0 → below expected actual) → KeptBy below (.app c [expected]) (.app d [actual])
  | emptyMap {key value key' value' : Ty} :
      Empty declarations parameters key' ∨ Empty declarations parameters value' →
      KeptBy below (.app .map [key, value]) (.app .map [key', value'])
  | map {key value key' value' : Ty} : below key key' → below value value' →
      KeptBy below (.app .map [key, value]) (.app .map [key', value'])
  | constructed {con : Con} {expected actual : List Ty} : form con = some .constructed →
      List.Forall₂ (fun tys tys' => (∃ ty ∈ tys', Empty declarations parameters ty) ∨
        List.Forall₂ below tys tys')
        (variants declarations con expected) (variants declarations con actual) →
      KeptBy below (.app con expected) (.app con actual)
  | function {con : Con} {expected actual : List Ty} : form con = some .function →
      eraseAll expected = eraseAll actual → KeptBy below (.app con expected) (.app con actual)

/-- Types whose values stay well-formed where another type is expected.  A declaration may
mention its own type, so the comparison is any relation that holds level by level. -/
def Kept (expected actual : Ty) : Prop :=
  ∃ below : Ty → Ty → Prop, below expected actual ∧
    ∀ expected actual, below expected actual →
      KeptBy declarations parameters below expected actual

/-- A value that passes from `actual` to `expected` holds, at any depth, a mutable reference:
`original` is the type of its referent, and values of `referent` may now be written there. -/
inductive Exposes : Value F64 F32 → Ty → Ty → Ty → Ty → Prop
  | here {values : List (Value F64 F32)} {referent original : Ty} :
      Exposes (.container (.reference true) values) (.app (.reference true) [referent])
        (.app (.reference true) [original]) referent original
  | container {con c d : Con} {values : List (Value F64 F32)} {value : Value F64 F32}
      {expected actual referent original : Ty} : value ∈ values →
      Exposes value expected actual referent original →
      Exposes (.container con values) (.app c [expected]) (.app d [actual]) referent original
  | key {entries : List (Value F64 F32 × Value F64 F32)} {entry : Value F64 F32 × Value F64 F32}
      {key value key' value' referent original : Ty} : entry ∈ entries →
      Exposes entry.1 key key' referent original →
      Exposes (.map entries) (.app .map [key, value]) (.app .map [key', value']) referent original
  | value {entries : List (Value F64 F32 × Value F64 F32)}
      {entry : Value F64 F32 × Value F64 F32} {key value key' value' referent original : Ty} :
      entry ∈ entries → Exposes entry.2 value value' referent original →
      Exposes (.map entries) (.app .map [key, value]) (.app .map [key', value']) referent original
  | payload {con : Con} {expected actual tys tys' : List Ty} {variant index : Nat}
      {payload : List (Value F64 F32)} {part : Value F64 F32} {ty ty' referent original : Ty} :
      (variants declarations con expected)[variant]? = some tys →
      (variants declarations con actual)[variant]? = some tys' → payload[index]? = some part →
      tys[index]? = some ty → tys'[index]? = some ty' → Exposes part ty ty' referent original →
      Exposes (.constructed con variant payload) (.app con expected) (.app con actual)
        referent original

/-- The mutable references that values can hold, read off the types: through the arguments of
containers and maps and the payloads of variants that have values. -/
inductive Slot : Ty → Ty → Ty → Ty → Prop
  | here {referent original : Ty} : ¬ Empty declarations parameters original →
      Slot (.app (.reference true) [referent]) (.app (.reference true) [original])
        referent original
  | container {c d : Con} {expected actual referent original : Ty} :
      form d = some .container → d ≠ .array 0 → Slot expected actual referent original →
      Slot (.app c [expected]) (.app d [actual]) referent original
  | key {key value key' value' referent original : Ty} :
      ¬ Empty declarations parameters value' → Slot key key' referent original →
      Slot (.app .map [key, value]) (.app .map [key', value']) referent original
  | value {key value key' value' referent original : Ty} :
      ¬ Empty declarations parameters key' → Slot value value' referent original →
      Slot (.app .map [key, value]) (.app .map [key', value']) referent original
  | payload {con : Con} {expected actual tys tys' : List Ty} {variant index : Nat}
      {ty ty' referent original : Ty} :
      (variants declarations con expected)[variant]? = some tys →
      (variants declarations con actual)[variant]? = some tys' →
      (∀ ty ∈ tys', ¬ Empty declarations parameters ty) →
      tys[index]? = some ty → tys'[index]? = some ty' → Slot ty ty' referent original →
      Slot (.app con expected) (.app con actual) referent original

end

section

variable {F64 F32 : Type} {declarations : Declarations} {parameters : String → Value F64 F32 → Prop}
  {con shown : Con} {entries : List (Value F64 F32 × Value F64 F32)} {variant : Nat}
  {payload : List (Value F64 F32)} {tys tys' : List Ty} {expected actual : Ty}

/-! ## Inversion -/

theorem ShownAs.trans {a b c : Con} (hab : ShownAs a b) (hbc : ShownAs b c) : ShownAs a c := by
  rcases hab with rfl | ⟨rfl, rfl⟩
  · exact hbc
  · rcases hbc with rfl | ⟨h, -⟩
    · exact .inr ⟨rfl, rfl⟩
    · cases h

theorem ShownAs.eq_emptyArray (h : ShownAs con shown) (hshown : shown = .array 0) :
    con = .array 0 := by
  rcases h with rfl | ⟨rfl, rfl⟩
  · exact hshown
  · cases hshown

variable {arguments : List Ty}

theorem HasType.number_inv {kind : Kind} {n : Int}
    (h : HasType declarations parameters (.number kind n) (.app con arguments)) :
    arguments = [] ∧ Holds con kind n := by
  cases h with
  | number hholds => exact ⟨rfl, hholds⟩

theorem HasType.container_inv {values : List (Value F64 F32)}
    (h : HasType declarations parameters (.container con values) (.app shown arguments)) :
    ∃ ty, arguments = [ty] ∧ room con values.length ∧ ShownAs con shown ∧
      ∀ value ∈ values, HasType declarations parameters value ty := by
  cases h with
  | container hroom hshown hvals => exact ⟨_, rfl, hroom, hshown, hvals⟩

theorem HasType.map_shape
    (h : HasType declarations parameters (.map entries) (.app con arguments)) :
    con = .map ∧ ∃ key value, arguments = [key, value] := by
  cases h with
  | map => exact ⟨rfl, _, _, rfl⟩

theorem HasType.map_inv {key value : Ty}
    (h : HasType declarations parameters (.map entries) (.app .map [key, value])) :
    (∀ entry ∈ entries, HasType declarations parameters entry.1 key) ∧
      ∀ entry ∈ entries, HasType declarations parameters entry.2 value := by
  cases h with
  | map hkeys hvals => exact ⟨hkeys, hvals⟩

theorem HasType.constructed_inv
    (h : HasType declarations parameters (.constructed con variant payload)
      (.app shown arguments)) :
    shown = con ∧ ∃ tys, (variants declarations con arguments)[variant]? = some tys ∧
      payload.length = tys.length ∧
      ∀ pair ∈ payload.zip tys, HasType declarations parameters pair.1 pair.2 := by
  cases h with
  | constructed hvariant hlen hpay => exact ⟨rfl, _, hvariant, hlen, hpay⟩

theorem hasType_constructed
    (hvariant : (variants declarations con arguments)[variant]? = some tys) :
    HasType declarations parameters (.constructed con variant payload) (.app con arguments) ↔
      List.Forall₂ (HasType declarations parameters) payload tys := by
  rw [forall₂_iff_zip]
  constructor
  · intro h
    obtain ⟨-, tys', htys, hlen, hpay⟩ := h.constructed_inv
    obtain rfl : tys = tys' := by simpa [hvariant] using htys
    exact ⟨hlen, fun hpair => hpay _ hpair⟩
  · rintro ⟨hlen, hpay⟩
    exact .constructed hvariant hlen fun pair hpair => hpay hpair

/-! ## Inclusion -/

/-- Payload types that are kept one by one keep a payload. -/
theorem hasType_payload {below : Ty → Ty → Prop} (hbelow : List.Forall₂ below tys tys')
    (hpay : List.Forall₂ (HasType declarations parameters) payload tys')
    (hparts : ∀ part ∈ payload, ∀ expected actual, below expected actual →
      HasType declarations parameters part actual → HasType declarations parameters part expected) :
    List.Forall₂ (HasType declarations parameters) payload tys := by
  induction hbelow generalizing payload with
  | nil =>
    cases hpay
    exact .nil
  | cons hhead _ ih =>
    cases hpay with
    | cons hfirst hrest =>
      rw [forall_mem_cons] at hparts
      exact .cons (hparts.1 _ _ hhead hfirst) (ih hrest hparts.2)

theorem not_empty_of_payload (h : List.Forall₂ (HasType declarations parameters) payload tys) :
    ∀ ty ∈ tys, ¬ Empty declarations parameters ty := by
  induction h with
  | nil => simp
  | cons hfirst _ ih => exact forall_mem_cons.mpr ⟨fun hempty => hempty _ hfirst, ih⟩

/-- One level of the comparison keeps a value if the levels below keep its parts. -/
theorem KeptBy.hasType {below : Ty → Ty → Prop}
    (h : KeptBy declarations parameters below expected actual) {value : Value F64 F32}
    (hvalue : HasType declarations parameters value actual)
    (hparts : ∀ part : Value F64 F32, sizeOf part < sizeOf value →
      ∀ expected actual, below expected actual → HasType declarations parameters part actual →
      HasType declarations parameters part expected) :
    HasType declarations parameters value expected := by
  cases h with
  | empty hempty => exact absurd hvalue (hempty value)
  | parameter hparam =>
    cases hvalue with
    | parameter h => exact hparam value h
  | asParameter hparam => exact .parameter (hparam value hvalue)
  | number hform hholds =>
    have hform := hvalue.form_eq.symm.trans hform
    cases value with
    | number kind n => exact .number (hholds kind n hvalue.number_inv.2)
    | _ => simp [Value.form] at hform
  | float hc hd =>
    have hform := hvalue.form_eq.symm.trans hd
    cases value with
    | float x =>
      rename_i c d
      cases c <;> simp [form] at hc
      · exact .float x
      · exact .floatLiteral x
    | _ => simp [Value.form] at hform
  | float32 | atom => exact hvalue
  | text hc hd =>
    have hform := hvalue.form_eq.symm.trans hd
    cases value with
    | text content =>
      rename_i c d
      cases c <;> simp [form] at hc
      · exact .string content
      · exact .str content
    | _ => simp [Value.form] at hform
  | container hform hshown hbelow =>
    have hform := hvalue.form_eq.symm.trans hform
    cases value with
    | container stored values =>
      obtain ⟨_, hty, hroom, hstored, hvals⟩ := hvalue.container_inv
      cases hty
      refine .container hroom (hstored.trans hshown) fun element helem => ?_
      have hsize := sizeOf_lt_of_mem helem
      refine hparts element (by simp; omega) _ _ (hbelow ?_) (hvals element helem)
      rintro rfl
      -- An array without elements has no element to convert.
      obtain rfl := hstored.eq_emptyArray rfl
      rw [length_eq_zero_iff.mp hroom] at helem
      exact not_mem_nil helem
    | _ => simp [Value.form] at hform
  | emptyMap hempty =>
    have hform := hvalue.form_eq
    cases value with
    | map entries =>
      obtain ⟨hkeys, hvals⟩ := hvalue.map_inv
      cases entries with
      | nil => exact .map (by simp) (by simp)
      | cons entry entries =>
        rcases hempty with hempty | hempty
        · exact absurd (hkeys entry mem_cons_self) (hempty _)
        · exact absurd (hvals entry mem_cons_self) (hempty _)
    | _ => simp [form, Value.form] at hform
  | map hkey hval =>
    have hform := hvalue.form_eq
    cases value with
    | map entries =>
      obtain ⟨hkeys, hvals⟩ := hvalue.map_inv
      have hsize (entry) (hentry : entry ∈ entries) : sizeOf entry.1 < sizeOf (Value.map entries) ∧
            sizeOf entry.2 < sizeOf (Value.map entries) := by
        have := sizeOf_lt_of_mem hentry
        obtain ⟨k, v⟩ := entry
        simp only [Prod.mk.sizeOf_spec, Value.map.sizeOf_spec] at this ⊢
        omega
      exact .map (fun entry hentry => hparts _ (hsize entry hentry).1 _ _ hkey (hkeys entry hentry))
        fun entry hentry => hparts _ (hsize entry hentry).2 _ _ hval (hvals entry hentry)
    | _ => simp [form, Value.form] at hform
  | constructed hcon hvariants =>
    have hform := hvalue.form_eq.symm.trans hcon
    cases value with
    | constructed stored variant payload =>
      obtain ⟨rfl, tys, hvariant, -⟩ := hvalue.constructed_inv
      have hpay := (hasType_constructed hvariant).mp hvalue
      obtain ⟨hi', rfl⟩ := List.getElem?_eq_some_iff.mp hvariant
      obtain ⟨hcount, hget⟩ := forall₂_iff_get.mp hvariants
      have hi : variant < _ := hcount ▸ hi'
      rcases hget variant hi hi' with ⟨ty, hty, hempty⟩ | hbelow
      · exact absurd hempty (not_empty_of_payload hpay ty hty)
      · refine (hasType_constructed (List.getElem?_eq_getElem hi)).mpr
          (hasType_payload hbelow hpay fun part hpart => hparts part ?_)
        have := sizeOf_lt_of_mem hpart
        simp only [Value.constructed.sizeOf_spec]
        omega
    | _ => simp [Value.form] at hform
  | function hcon herase =>
    have hform := hvalue.form_eq.symm.trans hcon
    cases value with
    | function stored signature =>
      cases hvalue with
      | function _ hsig => exact .function hcon (herase.trans hsig)
    | _ => simp [Value.form] at hform

theorem Kept.included (h : Kept declarations parameters expected actual) :
    Included declarations parameters actual expected := by
  obtain ⟨below, hbelow, hlevel⟩ := h
  intro value
  -- The levels of the comparison end with the value, not with the types.
  induction hn : sizeOf value using Nat.strong_induction_on generalizing value expected actual with
  | _ n ih =>
    intro hval
    refine (hlevel _ _ hbelow).hasType hval fun part hpart expected actual hbelow hpart' => ?_
    exact ih _ (hn ▸ hpart) hbelow part rfl hpart'

/-! ## What inclusion keeps -/

theorem exists_room (h : form con = some .container) (hne : con ≠ .array 0) :
    ∃ count, room con (count + 1) := by
  cases con with
  | array length => exact ⟨length - 1, by simp_all [room]; omega⟩
  | _ => simp_all [form, room]

theorem ShownAs.room_iff (h : ShownAs con shown) (count : Nat) :
    room con count ↔ room shown count := by
  rcases h with rfl | ⟨rfl, rfl⟩ <;> rfl

theorem exists_container (h : form con = some .container) (hne : con ≠ .array 0)
    (value : Value F64 F32) : ∃ values : List (Value F64 F32), room con values.length ∧
      value ∈ values ∧ ∀ other ∈ values, other = value := by
  obtain ⟨count, hcount⟩ := exists_room h hne
  exact ⟨List.replicate (count + 1) value, by simpa using hcount, by simp,
    fun other hother => eq_of_mem_replicate hother⟩

theorem exists_payload (h : ∀ ty ∈ tys, ¬ Empty declarations parameters ty) :
    ∃ payload : List (Value F64 F32),
      List.Forall₂ (HasType declarations parameters) payload tys := by
  induction tys with
  | nil => exact ⟨[], .nil⟩
  | cons ty tys ih =>
    simp only [mem_cons, forall_eq_or_imp, Empty, not_forall, not_not] at h
    obtain ⟨⟨value, hval⟩, hrest⟩ := h
    obtain ⟨payload, hpay⟩ := ih (by simpa [Empty] using hrest)
    exact ⟨value :: payload, .cons hval hpay⟩

theorem forall₂_included (hinh : ∀ ty ∈ tys', ¬ Empty declarations parameters ty)
    (h : ∀ payload : List (Value F64 F32),
      List.Forall₂ (HasType declarations parameters) payload tys' →
      List.Forall₂ (HasType declarations parameters) payload tys) :
    List.Forall₂ (fun ty ty' => Included declarations parameters ty' ty) tys tys' := by
  induction tys' generalizing tys with
  | nil =>
    cases h [] .nil
    exact .nil
  | cons ty' tys' ih =>
    obtain ⟨payload, hpay⟩ := exists_payload hinh
    obtain ⟨first, rest, hfirst, hrest, rfl⟩ := forall₂_cons_right_iff.mp hpay
    obtain ⟨ty, tys, -, -, rfl⟩ := forall₂_cons_left_iff.mp (h _ hpay)
    refine .cons (fun value hval => ?_) (ih ?_ fun payload hpay => ?_)
    · exact (forall₂_cons.mp (h (value :: rest) (.cons hval hrest))).1
    · exact fun ty hty => hinh ty (mem_cons_of_mem _ hty)
    · exact (forall₂_cons.mp (h (first :: payload) (.cons hfirst hpay))).2

theorem variants_length {xs ys : List Ty} {i j : Nat}
    (hxs : (variants declarations con xs)[i]? = some tys)
    (hys : (variants declarations con ys)[j]? = some tys') :
    (variants declarations con xs).length = (variants declarations con ys).length := by
  cases con with
  | option | result => unfold variants at *; split at hxs <;> split at hys <;> simp_all
  | struct id => cases hlook : declarations.structs.lookup id <;> simp [variants, hlook]
  | enum id => cases hlook : declarations.enums.lookup id <;> simp [variants, hlook]
  | _ => simp [variants] at hxs

/-- Inclusion holds level by level. -/
theorem keptBy_included (h : Included declarations parameters actual expected) :
    KeptBy declarations parameters
      (fun expected actual => Included declarations parameters actual expected)
      expected actual := by
  by_cases hempty : Empty declarations parameters actual
  · exact .empty hempty
  obtain ⟨value, hact⟩ : ∃ value, HasType declarations parameters value actual := by
    simpa [Empty] using hempty
  have hexp := h value hact
  match expected, actual with
  | .generic name, actual =>
    refine .asParameter fun value hval => ?_
    cases h value hval with
    | parameter hparam => exact hparam
  | expected, .generic name => exact .parameter fun value hval => h value (.parameter hval)
  | .app c xs, .app d ys =>
    have hd := hact.form_eq
    have hc := hexp.form_eq
    cases value with
    | number kind n =>
      obtain ⟨rfl, -⟩ := hact.number_inv
      obtain ⟨rfl, -⟩ := hexp.number_inv
      exact .number hd fun kind n hholds => (h _ (.number hholds)).number_inv.2
    | float x => cases hact <;> cases hexp <;> exact .float rfl rfl
    | float32 x =>
      cases hact
      cases hexp
      exact .float32
    | text content => cases hact <;> cases hexp <;> exact .text rfl rfl
    | atom con id =>
      cases hact
      cases hexp
      exact .atom hc
    | container con values =>
      obtain ⟨y, rfl, hroom, hshown, hvals⟩ := hact.container_inv
      obtain ⟨x, rfl, -⟩ := hexp.container_inv
      have hroom' := (hshown.room_iff _).mp hroom
      obtain ⟨-, -, -, hshown', -⟩ :=
        (h _ (.container hroom' (.inl rfl) hvals)).container_inv
      refine .container hd hshown' fun hne element helem => ?_
      obtain ⟨copies, hcopies, hmem, hall⟩ := exists_container hd hne element
      obtain ⟨_, hty, -, -, helems⟩ := (h _ (.container hcopies (.inl rfl)
        fun other hother => hall other hother ▸ helem)).container_inv
      cases hty
      exact helems element hmem
    | map entries =>
      obtain ⟨rfl, key', value', rfl⟩ := hact.map_shape
      obtain ⟨rfl, key, value, rfl⟩ := hexp.map_shape
      by_cases hkey : Empty declarations parameters key'
      · exact .emptyMap (.inl hkey)
      by_cases hval : Empty declarations parameters value'
      · exact .emptyMap (.inr hval)
      obtain ⟨someKey, hsomeKey⟩ : ∃ k, HasType declarations parameters k key' := by
        simpa [Empty] using hkey
      obtain ⟨someValue, hsomeValue⟩ : ∃ v, HasType declarations parameters v value' := by
        simpa [Empty] using hval
      have hentry {k v : Value F64 F32} (hk : HasType declarations parameters k key')
          (hv : HasType declarations parameters v value') :=
        (h (.map [(k, v)]) (.map (by simpa using hk) (by simpa using hv))).map_inv
      exact .map (fun k hk => (hentry hk hsomeValue).1 (k, someValue) (by simp))
        fun v hv => (hentry hsomeKey hv).2 (someKey, v) (by simp)
    | constructed con variant payload =>
      obtain ⟨rfl, tys, htys, -⟩ := hact.constructed_inv
      obtain ⟨rfl, tys', htys', -⟩ := hexp.constructed_inv
      refine .constructed hc (forall₂_iff_get.mpr ⟨variants_length htys' htys, fun i hi hi' => ?_⟩)
      by_cases hinh : ∀ ty ∈ (variants declarations c ys)[i], ¬ Empty declarations parameters ty
      · refine .inr (forall₂_included hinh fun payload hpay => ?_)
        exact (hasType_constructed (List.getElem?_eq_getElem hi)).mp
          (h _ ((hasType_constructed (List.getElem?_eq_getElem hi')).mpr hpay))
      · exact .inl (by simpa using hinh)
    | function con signature =>
      cases hact with
      | function hcon hsig =>
        cases hexp with
        | function _ hsig' => exact .function hcon (hsig'.trans hsig.symm)

theorem kept_iff_included :
    Kept declarations parameters expected actual ↔
      Included declarations parameters actual expected :=
  ⟨Kept.included, fun h => ⟨_, h, fun _ _ h => keptBy_included h⟩⟩

/-! ## Mutable references -/

theorem not_empty (h : ∃ value : Value F64 F32, HasType declarations parameters value actual) :
    ¬ Empty declarations parameters actual :=
  fun hempty => hempty h.choose h.choose_spec

theorem exists_payload_with {index : Nat} {ty : Ty} {part : Value F64 F32}
    (hinh : ∀ ty ∈ tys, ¬ Empty declarations parameters ty) (hty : tys[index]? = some ty)
    (hpart : HasType declarations parameters part ty) :
    ∃ payload : List (Value F64 F32),
      List.Forall₂ (HasType declarations parameters) payload tys ∧ payload[index]? = some part := by
  induction tys generalizing index with
  | nil => cases hty
  | cons first rest ih =>
    rw [forall_mem_cons] at hinh
    cases index with
    | zero =>
      cases hty
      obtain ⟨payload, hpay⟩ := exists_payload hinh.2
      exact ⟨part :: payload, .cons hpart hpay, rfl⟩
    | succ index =>
      obtain ⟨payload, hpay, hindex⟩ := ih hinh.2 hty
      obtain ⟨value, hval⟩ := not_forall_not.mp hinh.1
      exact ⟨value :: payload, .cons hval hpay, hindex⟩

theorem Exposes.slot {value : Value F64 F32} {referent original : Ty}
    (h : Exposes declarations value expected actual referent original)
    (hval : HasType declarations parameters value actual) :
    Slot declarations parameters expected actual referent original := by
  induction h with
  | here =>
    obtain ⟨_, hty, hroom, -, hvals⟩ := hval.container_inv
    cases hty
    obtain ⟨held, rfl⟩ := length_eq_one_iff.mp hroom
    exact .here (not_empty ⟨held, hvals held mem_cons_self⟩)
  | container hmem _ ih =>
    have hform := hval.form_eq
    obtain ⟨_, hty, hroom, hshown, hvals⟩ := hval.container_inv
    cases hty
    refine .container hform (fun hempty => ?_) (ih (hvals _ hmem))
    obtain rfl := hshown.eq_emptyArray hempty
    rw [length_eq_zero_iff.mp hroom] at hmem
    exact not_mem_nil hmem
  | key hmem _ ih =>
    obtain ⟨hkeys, hvals⟩ := hval.map_inv
    exact .key (not_empty ⟨_, hvals _ hmem⟩) (ih (hkeys _ hmem))
  | value hmem _ ih =>
    obtain ⟨hkeys, hvals⟩ := hval.map_inv
    exact .value (not_empty ⟨_, hkeys _ hmem⟩) (ih (hvals _ hmem))
  | payload hexp hact hpart hty hty' _ ih =>
    have hpay := (hasType_constructed hact).mp hval
    have hparts := (forall₂_iff_get.mp hpay).2
    refine .payload hexp hact (not_empty_of_payload hpay) hty hty' (ih ?_)
    obtain ⟨hi, rfl⟩ := List.getElem?_eq_some_iff.mp hpart
    obtain ⟨hi', rfl⟩ := List.getElem?_eq_some_iff.mp hty'
    exact hparts _ hi hi'

theorem Slot.eq_of_eq {referent original : Ty}
    (h : Slot declarations parameters expected actual referent original)
    (heq : expected = actual) : referent = original := by
  induction h with
  | here =>
    cases heq
    rfl
  | container _ _ _ ih | key _ _ ih | value _ _ ih =>
    cases heq
    exact ih rfl
  | payload hexp hact _ hty hty' _ ih =>
    cases heq
    obtain rfl := Option.some.inj (hexp.symm.trans hact)
    exact ih (Option.some.inj (hty.symm.trans hty'))

theorem Slot.exposed {referent original : Ty}
    (h : Slot declarations parameters expected actual referent original) :
    ∃ value : Value F64 F32, HasType declarations parameters value actual ∧
      Exposes declarations value expected actual referent original := by
  induction h with
  | here hne =>
    obtain ⟨held, hheld⟩ := not_forall_not.mp hne
    exact ⟨.container (.reference true) [held],
      .container rfl (.inl rfl) (by simpa using hheld), .here⟩
  | container hform hne _ ih =>
    obtain ⟨value, hval, hexp⟩ := ih
    obtain ⟨copies, hroom, hmem, hall⟩ := exists_container hform hne value
    exact ⟨.container _ copies,
      .container hroom (.inl rfl) fun other hother => hall other hother ▸ hval,
      .container hmem hexp⟩
  | key hne _ ih =>
    obtain ⟨key, hkey, hexp⟩ := ih
    obtain ⟨value, hval⟩ := not_forall_not.mp hne
    exact ⟨.map [(key, value)], .map (by simpa using hkey) (by simpa using hval),
      .key mem_cons_self hexp⟩
  | value hne _ ih =>
    obtain ⟨value, hval, hexp⟩ := ih
    obtain ⟨key, hkey⟩ := not_forall_not.mp hne
    exact ⟨.map [(key, value)], .map (by simpa using hkey) (by simpa using hval),
      .value mem_cons_self hexp⟩
  | payload hexp hact hinh hty hty' _ ih =>
    obtain ⟨part, hpart, hexposes⟩ := ih
    obtain ⟨payload, hpay, hindex⟩ := exists_payload_with hinh hty' hpart
    exact ⟨.constructed _ _ payload, (hasType_constructed hact).mpr hpay,
      .payload hexp hact hindex hty hty' hexposes⟩

end

/-! ## Names and types -/

def composite : Form → Bool
  | .container | .map | .constructed | .function => true
  | _ => false

theorem ne_infer_of_form {con : Con} (h : form con = some shape) : con ≠ .infer := by
  rintro rfl
  cases h

theorem scalarCompatible_of_form {c d : Con} (h : form c = some shape)
    (hcomp : composite shape = true) : scalarCompatible c d = none := by
  cases c <;> simp_all [scalarCompatible] <;> cases h <;> cases hcomp

/-- The type that a name of the table stands for. -/
def conOf : Target → Con
  | .fixed .int | .int => .int
  | .fixed .uint | .uint => .uint
  | .fixed (.signed width) => .signed width.bits
  | .fixed (.unsigned width) => .unsigned width.bits
  | .float32 => .float32
  | .float => .float

theorem targets_builtin : ∀ entry ∈ targets,
    builtinTypes.lookup entry.1 = some (conOf entry.2, 0) ∧ entry.1 ≠ "fn" ∧
      entry.1 ≠ "CFunction" ∧ entry.1 ≠ "ptr" := by
  decide

/-- A type whose values have parts. -/
def Composite (ty : Ty) : Prop :=
  ∃ con arguments shape, ty = .app con arguments ∧ form con = some shape ∧
    composite shape = true

theorem composite_resolveDeclared {arguments : List Ty} (hargs : arguments ≠ [])
    (h : resolveDeclared program generics name arguments = some ty) : Composite ty := by
  rw [resolveDeclared, if_neg (by simp [hargs])] at h
  cases hnom : program.nominal name with
  | none => simp [hnom] at h
  | some entry =>
    obtain ⟨con, arity⟩ := entry
    have hcon : form con = some .constructed := by
      obtain ⟨id, -, rfl, -⟩ | ⟨-, id, -, rfl, -⟩ := Disp.Dispatch.Program.nominal_eq_some hnom <;>
        rfl
    simp only [hnom] at h
    split_ifs at h
    cases h
    exact ⟨con, arguments, .constructed, rfl, hcon, rfl⟩

theorem resolveHead_target (hgoal : targets.lookup name = some goal) {arguments : List Ty}
    (h : resolveHead program generics (.named name) arguments = some ty) :
    ty = .app (conOf goal) [] ∨ Composite ty := by
  obtain ⟨hbuiltin, hfn, hcFunction, -⟩ := targets_builtin _ (mem_of_lookup hgoal)
  unfold resolveHead at h
  dsimp only at h hbuiltin hfn hcFunction
  rw [if_neg (by simp [hfn]), if_neg (by simp [hcFunction]), hbuiltin] at h
  dsimp only at h
  by_cases hlen : arguments.length = 0
  · rw [if_pos hlen] at h
    cases h
    exact .inl (by rw [length_eq_zero_iff.mp hlen])
  · rw [if_neg hlen] at h
    exact .inr (composite_resolveDeclared (by rintro rfl; exact hlen rfl) h)

/-- A type written with a name of the table is the type of that name, or it is a reference to
it or a declared type of the same name. -/
theorem resolve_target {name : TypeName} {expected : Ty}
    (h : resolveType program generics name = some expected) (hgoal : target name.head = some goal) :
    expected = .app (conOf goal) [] ∨ Composite expected := by
  obtain ⟨head, arguments, qualifier⟩ := name
  cases head with
  | array length => cases hgoal
  | named name =>
    obtain ⟨-, -, -, hptr⟩ := targets_builtin _ (mem_of_lookup hgoal)
    rw [resolveType] at h
    cases hresolved : Disp.Dispatch.resolveTypes program generics arguments with
    | none => simp [hresolved] at h
    | some resolved =>
      rw [hresolved] at h
      cases qualifier with
      | owned => exact resolveHead_target hgoal h
      | sharedReference | mutableReference =>
        obtain ⟨inner, -, rfl⟩ := Option.map_eq_some_iff.mp h
        exact .inr ⟨_, _, .container, rfl, rfl, rfl⟩
      | rawConstPointer | rawMutPointer =>
        obtain ⟨⟨hname, -⟩, -⟩ := Option.ite_none_right_eq_some.mp h
        cases hname
        exact absurd rfl hptr

/-! ## Soundness -/

section

variable {F64 F32 : Type} (floats : Floats F64 F32) (declarations : Declarations)
  (parameters : String → Value F64 F32 → Prop)

/-- What coercion makes of the values of the actual type is well-formed, and so is, for the
referent's own type, what is written through a mutable reference that such a value holds at any
depth. -/
structure CoercionSound (name : TypeName) (expected actual : Ty) : Prop where
  coerced : ∀ value result, HasType declarations parameters value actual →
    coerceValue floats value name = .ok result → HasType declarations parameters result expected
  written : ∀ value referent original, HasType declarations parameters value actual →
    Exposes declarations value expected actual referent original →
    Included declarations parameters referent original

/-- The name is one of a fixed width or of a float, or it is `uint` and takes a literal that
the interpreter holds as an `int`, or the values need no conversion. -/
def Carried (name : TypeName) (expected actual : Ty) : Prop :=
  (∃ goal, target name.head = some goal ∧ goal ≠ .int ∧ goal ≠ .uint) ∨
    (target name.head = some .uint ∧ expected = .uint ∧ ∃ value : Nat,
      (value : Int) ≤ (signedRange 64).hi ∧ actual = .intLiteral value) ∨
    Kept declarations parameters expected actual

end

section

variable {F64 F32 : Type} {floats : Floats F64 F32} {declarations : Declarations}
  {parameters : String → Value F64 F32 → Prop} {c : Con} {expected actual : Ty}
  {value result : Value F64 F32} {con : Con}

theorem form_of_comparesArguments {d : Con} (h : c.comparesArguments d = true) :
    form d = form c := by
  unfold Con.comparesArguments at h
  split at h
  all_goals first | rfl | cases h

/-- The values of a type that is accepted for a type with parts have parts. -/
theorem hasType_composite (hcompat : typesCompatible expected actual = true)
    (hexp : Composite expected) (h : HasType declarations parameters value actual) :
    composite value.form = true := by
  obtain ⟨c, xs, shape, rfl, hc, hcomp⟩ := hexp
  cases actual with
  | generic name =>
    simp only [typesCompatible, beq_iff_eq] at hcompat
    exact absurd hcompat (ne_infer_of_form hc)
  | app d ys =>
    have hd := h.form_eq
    rw [typesCompatible, if_neg (by simp [ne_infer_of_form hc, ne_infer_of_form hd]),
      scalarCompatible_of_form hc hcomp] at hcompat
    have hform : form d = form c := by
      by_cases hcompares : c.comparesArguments d = true
      · exact form_of_comparesArguments hcompares
      · obtain ⟨rfl, -⟩ : c = d ∧ xs = ys := by simpa [hcompares] using hcompat
        rfl
    obtain rfl : value.form = shape := by simpa [hd, hc] using hform
    exact hcomp

theorem not_numeric {value : Value F64 F32} (h : composite value.form = true) :
    (∀ kind, fixedNumber floats kind value = none) ∧ numericAsF64 floats value = none := by
  cases value with
  | container | map | constructed | function => exact ⟨fun kind => by cases kind <;> rfl, rfl⟩
  | _ => cases h

theorem kindOf_fixed (kind : Kind) : kindOf (conOf (.fixed kind)) = some kind := by
  cases kind with
  | int | uint => rfl
  | signed width | unsigned width => cases width <;> rfl

theorem literalAllows_fixed (kind : Kind) (n : Int) : literalAllows (conOf (.fixed kind)) n := by
  cases kind <;> trivial

/-- Under a name of a fixed width or of a float what coercion returns is well-formed. -/
theorem coerced_fixed {name : TypeName}
    (hresolve : resolveType program generics name = some expected)
    (hcompat : typesCompatible expected actual = true) (hgoal : target name.head = some goal)
    (hint : goal ≠ .int) (huint : goal ≠ .uint) (h : HasType declarations parameters value actual)
    (hres : coerceValue floats value name = .ok result) :
    HasType declarations parameters result expected := by
  unfold coerceValue at hres
  rw [hgoal] at hres
  rcases resolve_target hresolve hgoal with rfl | hcomp
  · cases goal with
    | fixed kind =>
      dsimp only at hres
      split at hres
      · cases hres
      · split_ifs at hres with hrange
        cases hres
        exact .number ⟨kindOf_fixed kind, hrange, literalAllows_fixed kind _⟩
    | float32 =>
      dsimp only at hres
      split at hres <;> cases hres
      exact .float32 _
    | float =>
      dsimp only at hres
      split at hres <;> cases hres
      exact .float _
    | int => exact absurd rfl hint
    | uint => exact absurd rfl huint
  · obtain ⟨hfixed, hfloat⟩ :=
      @not_numeric _ _ floats _ (hasType_composite hcompat hcomp h)
    cases goal with
    | fixed kind => simp [hfixed] at hres
    | float32 | float => simp [hfloat] at hres
    | int => exact absurd rfl hint
    | uint => exact absurd rfl huint

/-- A literal that the interpreter holds as an `int` becomes a `uint`. -/
theorem coerced_literal {name : TypeName} (hgoal : target name.head = some .uint) {literal : Nat}
    (hliteral : (literal : Int) ≤ (signedRange 64).hi)
    (h : HasType declarations parameters value (.intLiteral literal))
    (hres : coerceValue floats value name = .ok result) :
    HasType declarations parameters result .uint := by
  have hform := h.form_eq
  cases value with
  | number kind n =>
    obtain ⟨-, hkind, -, rfl⟩ := h.number_inv
    obtain rfl : Kind.int = kind := by simpa [kindOf, hliteral] using hkind
    unfold coerceValue at hres
    rw [hgoal] at hres
    simp only [Int.natCast_nonneg, if_true, Except.ok.injEq] at hres
    obtain rfl := hres
    have hhi : (signedRange 64).hi ≤ Kind.uint.range.hi := by decide
    exact .number ⟨rfl, ⟨Int.natCast_nonneg literal, hliteral.trans hhi⟩, trivial⟩
  | _ => simp [form, Value.form] at hform

/-- The types whose integers are held as `int`. -/
theorem kindOf_int (h : kindOf con = some .int) :
    con = .int ∨ (∃ value : Nat, con = .intLiteral value ∧ (value : Int) ≤ (signedRange 64).hi) ∨
      ∃ value, con = .negativeIntLiteral value := by
  cases con with
  | int => exact .inl rfl
  | intLiteral value =>
    refine .inr (.inl ⟨value, rfl, ?_⟩)
    by_contra hgreat
    simp [kindOf, hgreat] at h
  | negativeIntLiteral value => exact .inr (.inr ⟨value, rfl⟩)
  | signed width | unsigned width => simp [kindOf] at h
  | _ => cases h

theorem kindOf_uint (h : kindOf con = some .uint) : con = .uint := by
  cases con with
  | uint => rfl
  | signed width | unsigned width => simp [kindOf] at h
  | intLiteral value | negativeIntLiteral value =>
    simp only [kindOf, Option.some.injEq] at h
    split_ifs at h
  | _ => cases h

theorem number_actual (hc : c ≠ .infer) (hcompat : typesCompatible (.app c []) actual = true)
    {kind : Kind} {n : Int} (h : HasType declarations parameters (.number kind n) actual) :
    ∃ d, actual = .app d [] ∧ kindOf d = some kind := by
  cases actual with
  | generic name =>
    simp only [typesCompatible, beq_iff_eq] at hcompat
    exact absurd hcompat hc
  | app d arguments =>
    obtain ⟨rfl, hholds⟩ := h.number_inv
    exact ⟨d, rfl, hholds.1⟩

theorem coerceValue_unchanged {name : TypeName}
    (h : ∀ goal, target name.head = some goal → goal = .int ∧ (∀ n, value ≠ .number .uint n) ∨
      goal = .uint ∧ ∀ n, value ≠ .number .int n) : coerceValue floats value name = .ok value := by
  unfold coerceValue
  split <;> simp_all

/-- Under any other name a value stays as it is, apart from literals under the name `uint`. -/
theorem unchanged_or_literal {program : Program} {generics : List String} {name : TypeName}
    {expected actual : Ty} (hresolve : resolveType program generics name = some expected)
    (hcompat : typesCompatible expected actual = true)
    (hother : ∀ goal, target name.head = some goal → goal = .int ∨ goal = .uint) :
    (∀ value, HasType declarations parameters value actual →
      coerceValue floats value name = .ok value) ∨
    target name.head = some .uint ∧ expected = .uint ∧ ∃ value : Nat,
      (value : Int) ≤ (signedRange 64).hi ∧ actual = .intLiteral value := by
  by_cases hint : target name.head = some .uint ∧
      ∃ n, HasType declarations parameters (.number .int n) actual
  · obtain ⟨hgoal, n, hn⟩ := hint
    rcases resolve_target hresolve hgoal with rfl | hcomp
    · obtain ⟨d, rfl, hkind⟩ := number_actual (by decide) hcompat hn
      rcases kindOf_int hkind with rfl | ⟨value, rfl, hval⟩ | ⟨value, rfl⟩
      · cases hcompat
      · exact .inr ⟨hgoal, rfl, value, hval, rfl⟩
      · cases hcompat
    · cases hasType_composite hcompat hcomp hn
  · refine .inl fun value h => coerceValue_unchanged fun goal hgoal => ?_
    rcases hother goal hgoal with rfl | rfl
    · refine .inl ⟨rfl, ?_⟩
      rintro n rfl
      rcases resolve_target hresolve hgoal with rfl | hcomp
      · obtain ⟨d, rfl, hkind⟩ := number_actual (by decide) hcompat h
        obtain rfl := kindOf_uint hkind
        cases hcompat
      · cases hasType_composite hcompat hcomp h
    · refine .inr ⟨rfl, ?_⟩
      rintro n rfl
      exact hint ⟨hgoal, n, h⟩

theorem coerced_iff_carried {program : Program} {generics : List String} {name : TypeName}
    {expected actual : Ty} (hresolve : resolveType program generics name = some expected)
    (hcompat : typesCompatible expected actual = true) :
    (∀ value result, HasType declarations parameters value actual →
      coerceValue floats value name = .ok result →
      HasType declarations parameters result expected) ↔
      Carried declarations parameters name expected actual := by
  by_cases hfixed : ∃ goal, target name.head = some goal ∧ goal ≠ .int ∧ goal ≠ .uint
  · refine ⟨fun _ => .inl hfixed, fun _ value result hval hres => ?_⟩
    obtain ⟨goal, hgoal, hint, huint⟩ := hfixed
    exact coerced_fixed hresolve hcompat hgoal hint huint hval hres
  have hother (goal) (hgoal : target name.head = some goal) : goal = .int ∨ goal = .uint := by
    by_contra hne
    exact hfixed ⟨goal, hgoal, not_or.mp hne⟩
  rcases @unchanged_or_literal _ _ floats declarations parameters _ _ _ _ _ hresolve
    hcompat hother with hunchanged | hliteral
  · constructor
    · intro h
      refine .inr (.inr (kept_iff_included.mpr fun value hval => ?_))
      exact h value value hval (hunchanged value hval)
    · rintro (h | ⟨hgoal, rfl, literal, hliteral, rfl⟩ | hkept) value result hval hres
      · exact absurd h hfixed
      · exact coerced_literal hgoal hliteral hval hres
      · obtain rfl : value = result := by simpa [hunchanged value hval] using hres
        exact hkept.included value hval
  · refine ⟨fun _ => .inr (.inl hliteral), fun _ value result hval hres => ?_⟩
    obtain ⟨hgoal, rfl, literal, hliteral, rfl⟩ := hliteral
    exact coerced_literal hgoal hliteral hval hres

/-- Where a type is accepted for another one, coercion is sound exactly if the name is one of
a fixed width or of a float or the values need no conversion, and at every depth the values of
the expected referent of a mutable reference need none to the original one. -/
theorem coercion_sound_iff {program : Program} {generics : List String} {name : TypeName}
    {expected actual : Ty} (hresolve : resolveType program generics name = some expected)
    (hcompatible : typesCompatible expected actual = true) :
    CoercionSound floats declarations parameters name expected actual ↔
      Carried declarations parameters name expected actual ∧
        ∀ referent original, Slot declarations parameters expected actual referent original →
          Kept declarations parameters original referent := by
  rw [← @coerced_iff_carried _ _ floats declarations parameters _ _ _ _ _ hresolve hcompatible]
  simp only [kept_iff_included]
  constructor
  · refine fun h => ⟨h.coerced, fun referent original hslot => ?_⟩
    obtain ⟨value, hval, hexposes⟩ := hslot.exposed
    exact h.written value referent original hval hexposes
  · rintro ⟨hcoerced, hslots⟩
    exact ⟨hcoerced, fun value referent original hval hexposes =>
      hslots referent original (hexposes.slot hval)⟩

end

/-! ## Instances -/

def noFloats : Floats Unit Unit :=
  { integral := fun _ => none, integral32 := fun _ => none, ofInteger := fun _ => (),
    widen := fun _ => (), narrow := fun _ => () }

/-- A type written in a program without declarations is accepted for another one. -/
def Accepted (name : TypeName) (expected actual : Ty) : Prop :=
  resolveType ⟨[], [], [], []⟩ [] name = some expected ∧ typesCompatible expected actual = true

/-- Soundness in a program without declarations. -/
def SoundAt (name : TypeName) (expected actual : Ty) : Prop :=
  CoercionSound noFloats ⟨[], []⟩ (fun _ _ => False) name expected actual

/-- `Option<&mut List<int>>`. -/
def listSlotName : TypeName :=
  .mk (.named "Option")
    [.mk (.named "List") [.mk (.named "int") [] .owned] .mutableReference] .owned

def listSlot : Ty := .app .option [.app (.reference true) [.app .list [.int]]]

/-- An `i8` becomes an `i64`, and through a mutable reference to a list in an option such lists
are written. -/
theorem widened_and_equal_sound :
    (Accepted (.mk (.named "i64") [] .owned) (.signed 64) (.signed 8) ∧
      SoundAt (.mk (.named "i64") [] .owned) (.signed 64) (.signed 8)) ∧
    Accepted listSlotName listSlot listSlot ∧ SoundAt listSlotName listSlot listSlot := by
  refine ⟨⟨⟨?widened, rfl⟩, (coercion_sound_iff ?widened rfl).mpr ⟨?_, ?_⟩⟩,
    ⟨?equal, rfl⟩, (coercion_sound_iff ?equal rfl).mpr ⟨?_, ?_⟩⟩
  case widened | equal => rfl
  · exact .inl ⟨_, rfl, by decide, by decide⟩
  · intro referent original h
    cases h
  · exact .inr (.inr (kept_iff_included.mpr fun value h => h))
  · intro referent original hslot
    rw [hslot.eq_of_eq rfl]
    exact kept_iff_included.mpr fun value h => h

theorem signed8_not_int {n : Int} :
    ¬ HasType declarations parameters (.number (.signed .w8) n) .int := by
  intro h
  cases h.number_inv.2.1

theorem one_signed8 : HasType declarations parameters (.number (.signed .w8) 1) (.signed 8) :=
  .number ⟨rfl, by decide, trivial⟩

/-- `Option<&mut Option<&int>>`. -/
def sharedSlotName : TypeName :=
  .mk (.named "Option") [.mk (.named "Option") [.mk (.named "int") [] .sharedReference]
    .mutableReference] .owned

/-- The type `Option<&mut Option<&int>>`, or the one with `&mut int`. -/
def slotOf (mutable : Bool) : Ty :=
  .app .option [.app (.reference true) [.app .option [.app (.reference mutable) [.int]]]]

theorem shared_not_mutable :
    ¬ Included ⟨[], []⟩ (fun (_ : String) (_ : Value Unit Unit) => False)
      (.app .option [.app (.reference false) [.int]])
      (.app .option [.app (.reference true) [.int]]) := by
  intro h
  have hone : HasType ⟨[], []⟩ (fun (_ : String) (_ : Value Unit Unit) => False)
      (.container (.reference false) [.number .int 1]) (.app (.reference false) [.int]) :=
    .container rfl (.inl rfl) (by simpa using .number ⟨rfl, by decide, trivial⟩)
  have hsome := h (.constructed .option 1 [.container (.reference false) [.number .int 1]])
    ((hasType_constructed rfl).mpr (.cons hone .nil))
  obtain ⟨-, -, -, hshown, -⟩ :=
    (forall₂_cons.mp ((hasType_constructed rfl).mp hsome)).1.container_inv
  rcases hshown with hshown | ⟨hshown, -⟩ <;> cases hshown

/-- An `i8` stays an `i8` where an `int` is expected, at the top, in a list and behind a
mutable reference, and an `int` that is written there is no `i8`.  Behind the mutable reference in
an option nothing has to be converted, but a shared reference is written where a mutable one was. -/
theorem narrower_unconverted :
    (Accepted (.mk (.named "int") [] .owned) .int (.signed 8) ∧
      ¬ SoundAt (.mk (.named "int") [] .owned) .int (.signed 8)) ∧
    (Accepted (.mk (.named "List") [.mk (.named "int") [] .owned] .owned)
        (.app .list [.int]) (.app .list [.signed 8]) ∧
      ¬ SoundAt (.mk (.named "List") [.mk (.named "int") [] .owned] .owned)
        (.app .list [.int]) (.app .list [.signed 8])) ∧
    Accepted (.mk (.named "int") [] .mutableReference)
      (.app (.reference true) [.int]) (.app (.reference true) [.signed 8]) ∧
    ¬ SoundAt (.mk (.named "int") [] .mutableReference)
      (.app (.reference true) [.int]) (.app (.reference true) [.signed 8]) ∧
    ¬ Included ⟨[], []⟩ (fun (_ : String) (_ : Value Unit Unit) => False) .int (.signed 8) ∧
    Accepted sharedSlotName (slotOf false) (slotOf true) ∧
    ¬ SoundAt sharedSlotName (slotOf false) (slotOf true) := by
  refine ⟨⟨⟨rfl, rfl⟩, fun h => ?_⟩, ⟨⟨rfl, rfl⟩, fun h => ?_⟩, ⟨rfl, rfl⟩, fun h => ?_,
    fun h => ?_, ⟨rfl, rfl⟩, fun h => ?_⟩
  · exact signed8_not_int (h.coerced _ _ one_signed8 rfl)
  · have hlist := h.coerced (.container .list [.number (.signed .w8) 1]) _
      (.container trivial (.inl rfl) (by simpa using one_signed8)) rfl
    obtain ⟨_, hty, -, -, helems⟩ := hlist.container_inv
    cases hty
    exact signed8_not_int (helems _ mem_cons_self)
  · have href := h.coerced (.container (.reference true) [.number (.signed .w8) 1]) _
      (.container rfl (.inl rfl) (by simpa using one_signed8)) rfl
    obtain ⟨_, hty, -, -, helems⟩ := href.container_inv
    cases hty
    exact signed8_not_int (helems _ mem_cons_self)
  · cases (h (.number .int 300) (.number ⟨rfl, by decide, trivial⟩)).number_inv.2.1
  · refine shared_not_mutable (h.written
      (.constructed .option 1 [.container (.reference true) [.constructed .option 0 []]]) _ _
      ((hasType_constructed rfl).mpr (.cons (.container rfl (.inl rfl) ?_) .nil))
      (@Exposes.payload _ _ _ _ _ _ _ _ 1 0 _ _ _ _ _ _ rfl rfl rfl rfl rfl .here))
    simpa using (hasType_constructed rfl).mpr .nil

end Disp.Coercion

import Disp.Data.Tables
import Disp.Http.Chunked
import Disp.Library.Decimal

/-!
# Composite keys

The key of a row under a composite constraint: the JSON texts of the constrained fields, each
behind its length in bytes.  The lengths tell where one text ends, and within one field type a
text is that of one value only.  The keys of two rows are therefore equal exactly when the rows
agree on the constrained fields.
-/

namespace Disp.Data

open List
open Disp.Http (httpBodyLimit)
open Disp.Library.Codec (bind_eq_ok)
open Disp.Library.Decimal
open Disp.Store (Field)

/-! ## Field values and their JSON texts -/

/-- The values of the field types that a data schema admits, floats apart.  Integers of all
widths are one case: they are written alike. -/
inductive Scalar
  | integer (value : Int)
  | string (text : String)
  | char (value : Char)
  | bool (value : Bool)
  deriving DecidableEq

inductive ScalarType
  | integer
  | string
  | char
  | bool

def Scalar.type : Scalar → ScalarType
  | .integer _ => .integer
  | .string _ => .string
  | .char _ => .char
  | .bool _ => .bool

/-- The checker admits no `Option` of an `Option`. -/
inductive FieldValue
  | plain (value : Scalar)
  | optional (value : Option Scalar)
  deriving DecidableEq

inductive FieldType
  | plain (type : ScalarType)
  | optional (type : ScalarType)

def FieldType.Holds : FieldType → FieldValue → Prop
  | .plain type, .plain value => value.type = type
  | .optional type, .optional value => ∀ scalar ∈ value, scalar.type = type
  | _, _ => False

def escapedLength (c : Char) : Nat :=
  if c ∈ ['"', '\\', '\x08', '\x0c', '\n', '\r', '\t'] then 2
  else if c < ' ' then 6
  else c.utf8Size

def escapeChar (c : Char) : List Char :=
  match c with
  | '"' => ['\\', '"']
  | '\\' => ['\\', '\\']
  | '\x08' => ['\\', 'b']
  | '\x0c' => ['\\', 'f']
  | '\n' => ['\\', 'n']
  | '\r' => ['\\', 'r']
  | '\t' => ['\\', 't']
  | c =>
    if c < ' ' then
      ['\\', 'u', '0', '0', Nat.digitChar (c.toNat / 16), Nat.digitChar (c.toNat % 16)]
    else
      [c]

def quoted (text : List Char) : String := String.ofList ('"' :: text.flatMap escapeChar ++ ['"'])

/-- The running length only grows, so its last value is the one to compare. -/
def jsonEscapeString (value : String) : Except String String :=
  if httpBodyLimit < 2 + (value.toList.map escapedLength).sum then
    .error "JSON document exceeds the 16 MiB limit"
  else
    .ok (quoted value.toList)

section Encoding

variable (parse : String → Except String Unit)

/-- `runtime_json`, over what its parser says of a text. -/
def runtimeJson (source : String) : Except String String :=
  if httpBodyLimit < source.utf8ByteSize then
    .error "JSON document exceeds the 16 MiB limit"
  else do
    parse source
    return source

def encodeScalar : Scalar → Except String String
  | .integer value => runtimeJson parse (toString value)
  | .string text => do runtimeJson parse (← jsonEscapeString text)
  | .char value => do runtimeJson parse (← jsonEscapeString (String.singleton value))
  | .bool value => runtimeJson parse (if value then "true" else "false")

/-- `encode_json_value` at the values of such fields. -/
def encodeJsonValue : FieldValue → Except String String
  | .plain value | .optional (some value) => encodeScalar parse value
  | .optional none => runtimeJson parse "null"

/-- No value of a field is a struct. -/
def jsonCodec : RowCodec FieldValue where
  fields _ := none
  encode := encodeJsonValue parse
  equal value other := value = other

end Encoding

/-! ## One text, one value -/

def hexValue (c : Char) : Nat := if c.isDigit then c.toNat - '0'.toNat else c.toNat - 'a'.toNat + 10

theorem hexValue_digits : ∀ n < 32,
    16 * hexValue (Nat.digitChar (n / 16)) + hexValue (Nat.digitChar (n % 16)) = n := by
  decide

/-- The inverse of `escapeChar`, with the rest of the text. -/
def unescapeChar : List Char → Option (Char × List Char)
  | '\\' :: 'b' :: rest => some ('\x08', rest)
  | '\\' :: 'f' :: rest => some ('\x0c', rest)
  | '\\' :: 'n' :: rest => some ('\n', rest)
  | '\\' :: 'r' :: rest => some ('\r', rest)
  | '\\' :: 't' :: rest => some ('\t', rest)
  | '\\' :: 'u' :: '0' :: '0' :: high :: low :: rest =>
    some (Char.ofNat (16 * hexValue high + hexValue low), rest)
  | '\\' :: c :: rest => some (c, rest)
  | c :: rest => some (c, rest)
  | [] => none

theorem unescapeChar_escapeChar (c : Char) (rest : List Char) :
    unescapeChar (escapeChar c ++ rest) = some (c, rest) := by
  unfold escapeChar
  split
  all_goals try rfl
  split
  · rename_i hcontrol
    have hlt : c.toNat < 32 := hcontrol
    simp only [cons_append, nil_append, unescapeChar, hexValue_digits _ hlt, Char.ofNat_toNat]
  · simp only [cons_append, nil_append]
    unfold unescapeChar
    split <;> simp_all

theorem escape_injective : ∀ {s t : List Char}, s.flatMap escapeChar = t.flatMap escapeChar → s = t
  | [], [], _ => rfl
  | [], d :: t, h => by
    have := unescapeChar_escapeChar d (t.flatMap escapeChar)
    rw [← flatMap_cons, ← h] at this
    cases this
  | c :: s, [], h => by
    have := unescapeChar_escapeChar c (s.flatMap escapeChar)
    rw [← flatMap_cons, h] at this
    cases this
  | c :: s, d :: t, h => by
    have hread := unescapeChar_escapeChar c (s.flatMap escapeChar)
    rw [← flatMap_cons, h, flatMap_cons, unescapeChar_escapeChar] at hread
    obtain ⟨rfl, hrest⟩ := Prod.mk.inj (Option.some.inj hread)
    rw [escape_injective hrest.symm]

/-- The text of a value, once its length and the parser allow one. -/
def Scalar.text : Scalar → String
  | .integer value => toString value
  | .string text => quoted text.toList
  | .char value => quoted [value]
  | .bool value => if value then "true" else "false"

def FieldValue.text : FieldValue → String
  | .plain value | .optional (some value) => value.text
  | .optional none => "null"

theorem toList_integer (a : Int) :
    (toString a).toList = if 0 ≤ a then digits a.toNat else '-' :: digits (-a).toNat := by
  rw [Int.toString_eq_repr, Int.repr_eq_if]
  split <;> simp [digits, Nat.toList_repr]

theorem integer_text_injective {a b : Int} (h : toString a = toString b) : a = b := by
  have hlist := congrArg String.toList h
  have hminus : ∀ {n : Nat} {text : List Char}, digits n ≠ '-' :: text := by
    intro n text hdigits
    have hdigit := isDigit_of_mem_digits (n := n) (hdigits ▸ mem_cons_self ..)
    cases hdigit
  rw [toList_integer, toList_integer] at hlist
  split at hlist <;> split at hlist
  · have := digits_injective hlist
    omega
  · exact absurd hlist hminus
  · exact absurd hlist.symm hminus
  · have := digits_injective (List.cons.inj hlist).2
    omega

theorem quoted_injective {s t : List Char} (h : quoted s = quoted t) : s = t := by
  rw [quoted, quoted, String.ofList_inj, append_left_inj, cons.injEq] at h
  exact escape_injective h.2

theorem Scalar.text_injective {v w : Scalar} (htype : v.type = w.type) (h : v.text = w.text) :
    v = w := by
  cases v <;> cases w <;> cases htype
  case integer.integer a b => rw [integer_text_injective h]
  case string.string s t => rw [String.toList_inj.mp (quoted_injective h)]
  case char.char c d => rw [(List.cons.inj (quoted_injective h)).1]
  case bool.bool b c => cases b <;> cases c <;> first | rfl | exact absurd h (by decide)

theorem Scalar.text_ne_null (v : Scalar) : v.text ≠ "null" := by
  intro h
  have hlist := congrArg String.toList h
  cases v with
  | integer a =>
    rw [text, toList_integer] at hlist
    split at hlist
    · have hdigit : 'n'.isDigit = true := isDigit_of_mem_digits (n := a.toNat) (by simp [hlist])
      cases hdigit
    · cases hlist
  | string _ | char _ => simp [text, quoted] at hlist
  | bool b => cases b <;> exact absurd h (by decide)

/-- Values of one field type with the same text are the same value. -/
theorem FieldValue.text_injective {type : FieldType} {v w : FieldValue} (hv : type.Holds v)
    (hw : type.Holds w) (h : v.text = w.text) : v = w := by
  cases type <;> cases v <;> cases w <;> first | exact False.elim hv | exact False.elim hw | skip
  case plain.plain.plain t v w =>
    rw [Scalar.text_injective (v := v) (w := w) (Eq.trans hv hw.symm) h]
  case optional.optional.optional t v w =>
    cases v <;> cases w
    · rfl
    · exact absurd h.symm (Scalar.text_ne_null _)
    · exact absurd h (Scalar.text_ne_null _)
    · rename_i v w
      rw [Scalar.text_injective ((hv v rfl).trans (hw w rfl).symm) h]

/-! ## Keys -/

section Keys

variable {parse : String → Except String Unit}

theorem runtimeJson_eq_ok {source text : String} (h : runtimeJson parse source = .ok text) :
    text = source := by
  unfold runtimeJson at h
  split at h
  · cases h
  · obtain ⟨_, -, h⟩ := bind_eq_ok h
    cases h
    rfl

theorem jsonEscapeString_eq_ok {value text : String} (h : jsonEscapeString value = .ok text) :
    text = quoted value.toList := by
  unfold jsonEscapeString at h
  split at h
  · cases h
  · cases h
    rfl

theorem encodeScalar_eq_ok {value : Scalar} {text : String}
    (h : encodeScalar parse value = .ok text) : text = value.text := by
  cases value with
  | integer value | bool value => exact runtimeJson_eq_ok h
  | string value | char value =>
    obtain ⟨escaped, hescaped, h⟩ := bind_eq_ok h
    rw [runtimeJson_eq_ok h, jsonEscapeString_eq_ok hescaped]
    simp [Scalar.text]

theorem encodeJsonValue_eq_ok {value : FieldValue} {text : String}
    (h : encodeJsonValue parse value = .ok text) : text = value.text := by
  match value with
  | .plain _ | .optional (some _) => exact encodeScalar_eq_ok h
  | .optional none => exact runtimeJson_eq_ok h

/-- The lengths in front of two texts tell where they end. -/
theorem framed_injective {a b x y : String}
    (h : s!"{a.utf8ByteSize}:" ++ a ++ x = s!"{b.utf8ByteSize}:" ++ b ++ y) : a = b ∧ x = y := by
  have hframe : ∀ (n : Nat) (a x : String),
      (s!"{n}:" ++ a ++ x).toList = digits n ++ ':' :: (a ++ x).toList := by
    intro n a x
    simp [digits]
    rfl
  have hlist := congrArg String.toList h
  rw [hframe, hframe] at hlist
  obtain ⟨hsize, hrest⟩ := digits_separated (by decide) hlist
  have hbytes := congrArg (fun text => text.toByteArray.data) (String.toList_inj.mp hrest)
  simp only [String.toByteArray_append, ByteArray.data_append] at hbytes
  obtain ⟨ha, hx⟩ := Array.append_inj hbytes hsize
  exact ⟨String.toByteArray_inj.mp (ByteArray.ext ha), String.toByteArray_inj.mp (ByteArray.ext hx)⟩

/-- One step of the key: the field's text behind its length, then the other fields. -/
theorem compositeKey_cons {fields : List Field} {values : String → Option FieldValue}
    {position : Nat} {rest : List Nat} {key : String}
    (h : compositeKey (jsonCodec parse) fields values (position :: rest) = .ok key) :
    ∃ field value others, fields[position]? = some field ∧ values field.name = some value ∧
      compositeKey (jsonCodec parse) fields values rest = .ok others ∧
      key = s!"{value.text.utf8ByteSize}:" ++ value.text ++ others := by
  rw [compositeKey] at h
  split at h
  · rename_i field hfield
    obtain ⟨encoded, hencoded, h⟩ := bind_eq_ok h
    obtain ⟨others, hothers, h⟩ := bind_eq_ok h
    unfold fieldKey at hencoded
    split at hencoded
    · cases hencoded
    · rename_i value hvalue
      cases h
      rw [encodeJsonValue_eq_ok hencoded]
      exact ⟨field, value, others, hfield, hvalue, hothers, rfl⟩
  · cases h

/-- The keys of two rows of a table under a composite constraint are equal exactly when the rows
have equal values in the constrained fields. -/
theorem compositeKey_eq_iff (types : String → FieldType) (fields : List Field)
    {row other : String → Option FieldValue}
    (hrow : ∀ name, ∀ value ∈ row name, (types name).Holds value)
    (hother : ∀ name, ∀ value ∈ other name, (types name).Holds value) (positions : List Nat)
    {key key' : String} (hkey : compositeKey (jsonCodec parse) fields row positions = .ok key)
    (hkey' : compositeKey (jsonCodec parse) fields other positions = .ok key') :
    key = key' ↔ ∀ position ∈ positions, ∀ field ∈ fields[position]?,
      row field.name = other field.name := by
  induction positions generalizing key key' with
  | nil =>
    cases hkey
    cases hkey'
    simp
  | cons position rest ih =>
    obtain ⟨field, value, others, hfield, hvalue, hothers, rfl⟩ := compositeKey_cons hkey
    obtain ⟨field', value', others', hfield', hvalue', hothers', rfl⟩ := compositeKey_cons hkey'
    cases hfield.symm.trans hfield'
    rw [forall_mem_cons, ← ih hothers hothers']
    constructor
    · intro h
      obtain ⟨htext, hrest⟩ := framed_injective h
      have heq := FieldValue.text_injective (hrow _ _ hvalue) (hother _ _ hvalue') htext
      refine ⟨fun named hnamed => ?_, hrest⟩
      cases hfield.symm.trans hnamed
      rw [hvalue, hvalue', heq]
    · rintro ⟨hfirst, rfl⟩
      have heq := hfirst field hfield
      rw [hvalue, hvalue', Option.some_inj] at heq
      rw [heq]

end Keys

def nameFields : List Field :=
  [⟨"first", "TEXT", true, true, false, false⟩, ⟨"nick", "TEXT", true, false, false, true⟩]

/-- A row with one optional name in all of its fields. -/
def namedRow (name : Option String) : String → Option FieldValue :=
  fun _ => some (.optional (name.map .string))

theorem namedRow_holds (name : Option String) (field : String) :
    ∀ value ∈ namedRow name field, (FieldType.optional .string).Holds value := by
  rintro _ ⟨⟩
  cases name <;> simp [FieldType.Holds, Scalar.type]

/-- Absent names and names that read `null` have different keys. -/
theorem absent_and_null_keys :
    compositeKey (jsonCodec fun _ => .ok ()) nameFields (namedRow none) [0, 1] =
        .ok "4:null4:null" ∧
      compositeKey (jsonCodec fun _ => .ok ()) nameFields (namedRow (some "null")) [0, 1] =
        .ok "6:\"null\"6:\"null\"" ∧
      ("4:null4:null" = "6:\"null\"6:\"null\"" ↔
        ∀ position ∈ [0, 1], ∀ field ∈ nameFields[position]?,
          namedRow none field.name = namedRow (some "null") field.name) :=
  ⟨rfl, rfl, @compositeKey_eq_iff (fun _ => .ok ()) (fun _ => .optional .string) nameFields _ _
    (namedRow_holds _) (namedRow_holds _) [0, 1] _ _ rfl rfl⟩

end Disp.Data

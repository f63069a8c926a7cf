import Disp.Arithmetic.Values
import Disp.Dispatch.Program
import Disp.TypeChecker.Send

/-!
# Values and their types

The interpreter's values as trees: a reference stands with the value it refers to, a task
with its result, a channel with what it holds.  `coerce_value` is the only conversion at a
binding, an argument or a result; it goes by the outermost name of the written type and
never enters a value.  `HasType` says which trees are well-formed values of a type.
-/

namespace Disp.Coercion

open Disp.Arithmetic (Kind Width)
open Disp.Dispatch (TypeName TypeHead TypeQualifier)
open Disp.Library.MachineInt Disp.TypeChecker

/-- What the interpreter asks of floating-point numbers: the value of a finite number
without a fraction, and the conversions. -/
structure Floats (F64 F32 : Type) where
  integral : F64 → Option Int
  integral32 : F32 → Option Int
  ofInteger : Int → F64
  widen : F32 → F64
  narrow : F64 → F32

inductive Value (F64 F32 : Type)
  | number (kind : Kind) (n : Int)
  | float (x : F64)
  | float32 (x : F32)
  | text (content : String)
  /-- A Boolean, a character, a unit or a host object such as a path or a socket. -/
  | atom (con : Con) (id : Nat)
  /-- Arrays, lists and the other types with one argument; a reference holds its referent. -/
  | container (con : Con) (values : List (Value F64 F32))
  | map (entries : List (Value F64 F32 × Value F64 F32))
  /-- A struct or the variant of an enum, of `Option` or of `Result`. -/
  | constructed (con : Con) (variant : Nat) (payload : List (Value F64 F32))
  /-- A function or closure with its declared parameter types and result type. -/
  | function (con : Con) (signature : List Ty)

/-! ## `coerce_value` -/

/-- What a name makes `coerce_value` do. -/
inductive Target
  | fixed (kind : Kind)
  | float32
  | float
  | int
  | uint
  deriving DecidableEq, Repr

def targets : List (String × Target) :=
  [("i8", .fixed (.signed .w8)), ("CChar", .fixed (.signed .w8)),
   ("i16", .fixed (.signed .w16)), ("CShort", .fixed (.signed .w16)),
   ("i32", .fixed (.signed .w32)), ("CInt", .fixed (.signed .w32)),
   ("i64", .fixed (.signed .w64)), ("CLongLong", .fixed (.signed .w64)),
   ("i128", .fixed (.signed .w128)),
   ("u8", .fixed (.unsigned .w8)), ("CUChar", .fixed (.unsigned .w8)),
   ("u16", .fixed (.unsigned .w16)), ("CUShort", .fixed (.unsigned .w16)),
   ("u32", .fixed (.unsigned .w32)), ("CUInt", .fixed (.unsigned .w32)),
   ("u64", .fixed (.unsigned .w64)), ("CULongLong", .fixed (.unsigned .w64)),
   ("u128", .fixed (.unsigned .w128)), ("f32", .float32), ("CFloat", .float32),
   ("f64", .float), ("CDouble", .float), ("int", .int), ("uint", .uint)]

/-- The name `[;n]` of an array type is in no table. -/
def target : TypeHead → Option Target
  | .named name => targets.lookup name
  | .array _ => none

inductive CoerceError
  | notRepresentable (kind : Kind)
  | outsideRange (n : Int) (kind : Kind)
  | notNumeric
  deriving DecidableEq, Repr

def CoerceError.message : CoerceError → String
  | .notRepresentable kind => s!"value cannot be represented as {kind.typeName}"
  | .outsideRange n kind => s!"value {n} is outside {kind.typeName} range"
  | .notNumeric => "value is not numeric"

section

variable {F64 F32 : Type} (floats : Floats F64 F32)

/-- A conversion of a float with `as` ends at the nearest number of the type. -/
def saturate (range : IntRange) (n : Int) : Int := max range.lo (min n range.hi)

/-- The number that is brought to a signed width.  The bounds of `i128` are compared as
floats, where the greater one is `2 ^ 127`. -/
def signedNumber : Value F64 F32 → Option Int
  | .number (.unsigned _) n => if n ≤ (signedRange 128).hi then some n else none
  | .number _ n => some n
  | .float x =>
    (floats.integral x).bind fun n =>
      if -(2 ^ 127) ≤ n ∧ n ≤ 2 ^ 127 then some (saturate (signedRange 128) n) else none
  | .float32 x => (floats.integral32 x).map (saturate (signedRange 128))
  | _ => none

def unsignedNumber : Value F64 F32 → Option Int
  | .number .uint n | .number (.unsigned _) n => some n
  | .number _ n => if 0 ≤ n then some n else none
  | .float x =>
    (floats.integral x).bind fun n =>
      if 0 ≤ n ∧ n ≤ 2 ^ 128 then some (saturate (unsignedRange 128) n) else none
  | .float32 x =>
    (floats.integral32 x).bind fun n =>
      if 0 ≤ n then some (saturate (unsignedRange 128) n) else none
  | _ => none

def numericAsF64 : Value F64 F32 → Option F64
  | .number _ n => some (floats.ofInteger n)
  | .float x => some x
  | .float32 x => some (floats.widen x)
  | _ => none

def fixedNumber : Kind → Value F64 F32 → Option Int
  | .unsigned _ => unsignedNumber floats
  | _ => signedNumber floats

/-- `coerce_value`; the qualifier and the arguments of the written type are not read. -/
def coerceValue (value : Value F64 F32) (ty : TypeName) :
    Except CoerceError (Value F64 F32) :=
  match target ty.head, value with
  | some (.fixed kind), value =>
    match fixedNumber floats kind value with
    | none => .error (.notRepresentable kind)
    | some n => if n ∈ kind.range then .ok (.number kind n) else .error (.outsideRange n kind)
  | some .uint, .number .int n => if 0 ≤ n then .ok (.number .uint n) else .ok (.number .int n)
  | some .int, .number .uint n =>
    if n ≤ (signedRange 64).hi then .ok (.number .int n) else .ok (.number .uint n)
  | some .float32, value =>
    match numericAsF64 floats value with
    | none => .error .notNumeric
    | some x => .ok (.float32 (floats.narrow x))
  | some .float, value =>
    match numericAsF64 floats value with
    | none => .error .notNumeric
    | some x => .ok (.float x)
  | _, value => .ok value

end

/-! ## Well-formed values -/

def width? : Nat → Option Width
  | 8 => some .w8
  | 16 => some .w16
  | 32 => some .w32
  | 64 => some .w64
  | 128 => some .w128
  | _ => none

/-- The representation of the integers of a type; a literal has the one that `evaluate`
gives it. -/
def kindOf : Con → Option Kind
  | .int => some .int
  | .uint => some .uint
  | .signed width => (width? width).map .signed
  | .unsigned width => (width? width).map .unsigned
  | .intLiteral value =>
    some (if (value : Int) ≤ (signedRange 64).hi then .int else .unsigned .w128)
  | .negativeIntLiteral value =>
    some (if -value ≤ (signedRange 64).hi then .int else .signed .w128)
  | _ => none

/-- A literal type has the one value that it names.  A literal that is negated twice keeps
its negative type. -/
def literalAllows : Con → Int → Prop
  | .intLiteral value, n => n = value
  | .negativeIntLiteral value, n => n = value ∨ n = -value
  | _, _ => True

/-- The integers of a type, with their representation. -/
def Holds (con : Con) (kind : Kind) (n : Int) : Prop :=
  kindOf con = some kind ∧ n ∈ kind.range ∧ literalAllows con n

/-- The forms of values, in the order of `Value`. -/
inductive Form
  | number
  | float
  | float32
  | text
  | atom
  | container
  | map
  | constructed
  | function
  deriving DecidableEq, Repr

def Value.form {F64 F32 : Type} : Value F64 F32 → Form
  | .number _ _ => .number
  | .float _ => .float
  | .float32 _ => .float32
  | .text _ => .text
  | .atom _ _ => .atom
  | .container _ _ => .container
  | .map _ => .map
  | .constructed _ _ _ => .constructed
  | .function _ _ => .function

/-- The form of a type's values.  The interpreter has no raw pointers, and no value has a
type that is still to be inferred. -/
def form : Con → Option Form
  | .int | .uint | .signed _ | .unsigned _ | .intLiteral _ | .negativeIntLiteral _ =>
    some .number
  | .float | .floatLiteral => some .float
  | .float32 => some .float32
  | .string | .str => some .text
  | .array _ | .slice | .list | .set | .channel | .thread | .future | .task | .mutex
  | .mutexGuard | .reference _ => some .container
  | .map => some .map
  | .option | .result | .struct _ | .enum _ => some .constructed
  | .function | .cFunction => some .function
  | .rawPointer _ | .memoryPointer _ | .cRegistration | .infer | .unknown | .associated _ => none
  | _ => some .atom

/-- How many values a container has room for. -/
def room : Con → Nat → Prop
  | .array length, count => count = length
  | .slice, _ | .list, _ | .set, _ | .channel, _ => True
  | .thread, count | .future, count | .task, count | .mutex, count | .mutexGuard, count
  | .reference _, count => count = 1
  | _, _ => False

/-- A mutable reference is also a shared one. -/
def ShownAs (con shown : Con) : Prop :=
  con = shown ∨ con = .reference true ∧ shown = .reference false

/-- The payloads of the variants of a type. -/
def variants (declarations : Declarations) : Con → List Ty → List (List Ty)
  | .option, [ty] => [[], [ty]]
  | .result, [ok, error] => [[ok], [error]]
  | .struct id, arguments =>
    ((declarations.structs.lookup id).map fun info =>
      info.fields.map fun field => substitute (info.generics.zip arguments) field.2).toList
  | .enum id, arguments =>
    ((declarations.enums.lookup id).map fun info =>
      info.variants.map fun variant =>
        variant.2.map (substitute (info.generics.zip arguments))).getD []
  | _, _ => []

mutual

/-- Texts of type `str` and of type `String` have one representation. -/
def erase : Ty → Ty
  | .generic name => .generic name
  | .app .str arguments => .app .string (eraseAll arguments)
  | .app con arguments => .app con (eraseAll arguments)

def eraseAll : List Ty → List Ty
  | [] => []
  | x :: xs => erase x :: eraseAll xs

end

/-- The well-formed values of a type, at every depth.  No value of the interpreter is a raw
pointer.  A function is well-formed at the signature it was declared with. -/
inductive HasType {F64 F32 : Type} (declarations : Declarations)
    (parameters : String → Value F64 F32 → Prop) : Value F64 F32 → Ty → Prop
  | parameter {name : String} {value : Value F64 F32} : parameters name value →
      HasType declarations parameters value (.generic name)
  | number {con : Con} {kind : Kind} {n : Int} : Holds con kind n →
      HasType declarations parameters (.number kind n) (.app con [])
  | float (x : F64) : HasType declarations parameters (.float x) (.app .float [])
  | floatLiteral (x : F64) : HasType declarations parameters (.float x) (.app .floatLiteral [])
  | float32 (x : F32) : HasType declarations parameters (.float32 x) (.app .float32 [])
  | string (content : String) :
      HasType declarations parameters (.text content) (.app .string [])
  | str (content : String) : HasType declarations parameters (.text content) (.app .str [])
  | atom {con : Con} (id : Nat) : form con = some .atom →
      HasType declarations parameters (.atom con id) (.app con [])
  | container {con shown : Con} {values : List (Value F64 F32)} {ty : Ty} :
      room con values.length → ShownAs con shown →
      (∀ value ∈ values, HasType declarations parameters value ty) →
      HasType declarations parameters (.container con values) (.app shown [ty])
  | map {entries : List (Value F64 F32 × Value F64 F32)} {key value : Ty} :
      (∀ entry ∈ entries, HasType declarations parameters entry.1 key) →
      (∀ entry ∈ entries, HasType declarations parameters entry.2 value) →
      HasType declarations parameters (.map entries) (.app .map [key, value])
  | constructed {con : Con} {arguments : List Ty} {variant : Nat}
      {payload : List (Value F64 F32)} {tys : List Ty} :
      (variants declarations con arguments)[variant]? = some tys →
      payload.length = tys.length →
      (∀ pair ∈ payload.zip tys, HasType declarations parameters pair.1 pair.2) →
      HasType declarations parameters (.constructed con variant payload) (.app con arguments)
  | function {con : Con} {signature shown : List Ty} : form con = some .function →
      eraseAll shown = eraseAll signature →
      HasType declarations parameters (.function con signature) (.app con shown)

/-- A value has the form of its type. -/
theorem HasType.form_eq {F64 F32 : Type} {declarations : Declarations}
    {parameters : String → Value F64 F32 → Prop} {value : Value F64 F32} {con : Con}
    {arguments : List Ty} (h : HasType declarations parameters value (.app con arguments)) :
    form con = some value.form := by
  cases h with
  | number hholds =>
    have hkind := hholds.1
    cases con <;> simp_all [kindOf, form, Value.form]
  | float | floatLiteral | float32 | string | str => rfl
  | atom id hatom => exact hatom
  | container hroom hshown =>
    rename_i stored values ty _
    have hform : form stored = some .container := by cases stored <;> simp_all [room, form]
    rcases hshown with rfl | ⟨rfl, rfl⟩
    · exact hform
    · rfl
  | map => rfl
  | constructed hvariant =>
    cases con <;> simp_all [variants, form, Value.form]
  | function hfn => exact hfn

end Disp.Coercion

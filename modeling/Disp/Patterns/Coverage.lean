import Disp.Library.PatternMatrix
import Disp.TypeChecker.Send
import Mathlib.Data.String.Basic

/-!
# Match coverage

The checker's view of a `match`: `check_pattern` turns the pattern of an arm into a coverage
pattern, `coverage_type` the scrutinee's type into the constructors of its values, and
`MatchCoverage` asks `pattern_is_useful` of every arm and at the end of the wildcard.
A type that is entered a second time on the way down, and every type 64 levels deep, is
open: nothing is known of its constructors.
-/

namespace Disp.Patterns

open Disp.Library.PatternMatrix (Shape)
open Disp.TypeChecker

/-! ## Patterns -/

/-- The patterns of the source; the parser expands the alternatives of an arm into arms. -/
inductive Pattern
  | wildcard
  | binding (name : String)
  | integer (value : Fin (2 ^ 128))
  | negativeInteger (magnitude : Fin (2 ^ 128))
  | string (value : String)
  | character (value : Char)
  | bool (value : Bool)
  | or (alternatives : List Pattern)
  | struct (typeName : String) (fields : List (String × Pattern)) (rest : Bool)
  | variant (typeName : Option String) (variant : String) (arguments : List Pattern)

inductive CoverageConstructor
  | variant (name : String)
  | struct (name : String)
  | bool (value : Bool)
  | integer (value : Nat)
  | negativeInteger (value : Int)
  | string (value : String)
  | character (value : Char)
  deriving DecidableEq, Repr

abbrev CoveragePattern := Disp.Library.PatternMatrix.Pattern CoverageConstructor

abbrev CoverageType := Shape CoverageConstructor

/-- The structs and enums of a program with their names.  The variants of an enum are kept by
name. -/
structure Registry extends Declarations where
  structName : Nat → String
  enumName : Nat → String
  variantsOnce : ∀ entry ∈ enums, (entry.2.variants.map Prod.fst).Nodup

/-- `sort_by_key` on the names of fields or variants. -/
def sortByName {α : Type} (entries : List (String × α)) : List (String × α) :=
  entries.mergeSort fun a b => decide (a.1 ≤ b.1)

inductive PatternError
  | unexpandedOr
  | mismatch (context : String) (expected actual : Ty)
  | negativeOutsideRange
  | structCannotMatch (expected : Ty)
  | wrongStruct (typeName : String) (expected : Ty)
  | unknownField (field typeName : String)
  | duplicateField (field typeName : String)
  | missingFields (typeName : String) (missing : List String)
  | wrongVariantOwner (owner : String) (expected : Ty)
  | unknownVariant (variant : String) (expected : Ty)
  | variantCannotMatch (expected : Ty)
  | payloadCount (variant : String) (expected found : Nat)

def requireSame (context : String) (expected actual : Ty) : Except PatternError Unit :=
  if typesCompatible expected actual then .ok () else .error (.mismatch context expected actual)

/-- The coverage pattern of a pattern and the variables it binds, the last one first. -/
abbrev Checked := CoveragePattern × List (String × Ty)

/-- The fields of a struct pattern are known, given once, and all there unless it ends
in `..`. -/
def checkProvided (typeName : String) (declared : List (String × Ty)) (rest : Bool) :
    List String → List String → Except PatternError Unit
  | provided, [] =>
    if !rest && provided.length != declared.length then
      .error (.missingFields typeName
        (((sortByName declared).map Prod.fst).filter (!provided.contains ·)))
    else
      .ok ()
  | provided, field :: fields =>
    if (declared.lookup field).isNone then .error (.unknownField field typeName)
    else if provided.contains field then .error (.duplicateField field typeName)
    else checkProvided typeName declared rest (field :: provided) fields

/-- The payload of a variant of a type, whose name the pattern may give. -/
def ownedPayload (typeName : Option String) (variant : String) (expected : Ty) (owner : String)
    (payload : Option (List Ty)) : Except PatternError (List Ty) :=
  match typeName.filter (· ≠ owner), payload with
  | some name, _ => .error (.wrongVariantOwner name expected)
  | none, some payload => .ok payload
  | none, none => .error (.unknownVariant variant expected)

/-- The payload types that a variant pattern is checked against. -/
def variantPayload (registry : Registry) (typeName : Option String) (variant : String)
    (expected : Ty) : Except PatternError (List Ty) :=
  match expected with
  | .app .option [value] =>
    ownedPayload typeName variant expected "Option"
      ([("Some", [value]), ("None", [])].lookup variant)
  | .app .result [ok, error] =>
    ownedPayload typeName variant expected "Result"
      ([("Ok", [ok]), ("Err", [error])].lookup variant)
  | .app (.enum id) arguments =>
    match registry.enums.lookup id with
    | some info =>
      ownedPayload typeName variant expected (registry.enumName id)
        ((info.variants.lookup variant).map
          (·.map (substitute (info.generics.zip arguments))))
    | none => .error (.variantCannotMatch expected)
  | _ => .error (.variantCannotMatch expected)

/-- A field that the pattern does not name is covered whole. -/
def checkField (checks : List (String × (Ty → Except PatternError Checked))) (name : String)
    (ty : Ty) : Except PatternError Checked :=
  match checks.lookup name with
  | some check => check ty
  | none => .ok (.wildcard, [])

/-- The patterns of a struct's fields in the order of their names. -/
def checkNamed (checks : List (String × (Ty → Except PatternError Checked)))
    (substitutions : Substitutions) :
    List (String × Ty) → Except PatternError (List CoveragePattern × List (String × Ty))
  | [] => .ok ([], [])
  | (name, ty) :: fields => do
      let (pattern, bindings) ← checkField checks name (substitute substitutions ty)
      let (patterns, later) ← checkNamed checks substitutions fields
      .ok (pattern :: patterns, later ++ bindings)

/-- A struct pattern, given the names and the checks of its fields. -/
def checkStruct (registry : Registry) (typeName : String) (names : List String)
    (checks : List (String × (Ty → Except PatternError Checked))) (rest : Bool) (expected : Ty) :
    Except PatternError Checked :=
  match expected with
  | .app (.struct id) arguments =>
    match registry.structs.lookup id with
    | some info =>
      if registry.structName id ≠ typeName then
        .error (.wrongStruct typeName expected)
      else do
        checkProvided typeName info.fields rest [] names
        let (patterns, bindings) ←
          checkNamed checks (info.generics.zip arguments) (sortByName info.fields)
        .ok (.constructor (.struct typeName) patterns, bindings)
    | none => .error (.structCannotMatch expected)
  | _ => .error (.structCannotMatch expected)

mutual

def checkPattern (registry : Registry) : Pattern → Ty → Except PatternError Checked
  | .wildcard, _ => .ok (.wildcard, [])
  | .or _, _ => .error .unexpandedOr
  | .binding name, expected => .ok (.wildcard, [(name, expected)])
  | .integer value, expected => do
      requireSame "integer pattern" expected (.intLiteral value)
      .ok (.constructor (.integer value) [], [])
  | .negativeInteger magnitude, expected =>
    if magnitude.val ≤ 2 ^ 127 then do
      requireSame "negative integer pattern" expected (.negativeIntLiteral (-magnitude.val))
      .ok (.constructor (.negativeInteger (-magnitude.val)) [], [])
    else
      .error .negativeOutsideRange
  | .string value, expected => do
      requireSame "string pattern" (.app .string []) expected
      .ok (.constructor (.string value) [], [])
  | .character value, expected => do
      requireSame "character pattern" (.app .char []) expected
      .ok (.constructor (.character value) [], [])
  | .bool value, expected => do
      requireSame "boolean pattern" .bool expected
      .ok (.constructor (.bool value) [], [])
  | .struct typeName fields rest, expected =>
    checkStruct registry typeName (fields.map Prod.fst) (checkFields registry fields) rest expected
  | .variant typeName variant arguments, expected => do
      let payload ← variantPayload registry typeName variant expected
      if payload.length ≠ arguments.length then
        .error (.payloadCount variant payload.length arguments.length)
      else do
        let (patterns, bindings) ← checkArguments registry arguments payload
        .ok (.constructor (.variant variant) patterns, bindings)

def checkFields (registry : Registry) :
    List (String × Pattern) → List (String × (Ty → Except PatternError Checked))
  | [] => []
  | (name, pattern) :: fields =>
    (name, checkPattern registry pattern) :: checkFields registry fields

def checkArguments (registry : Registry) : List Pattern → List Ty →
    Except PatternError (List CoveragePattern × List (String × Ty))
  | pattern :: arguments, ty :: tys => do
      let (pattern, bindings) ← checkPattern registry pattern ty
      let (patterns, later) ← checkArguments registry arguments tys
      .ok (pattern :: patterns, later ++ bindings)
  | _, _ => .ok ([], [])

end

/-! ## Coverage types -/

/-- `coverage_type` with `levels` levels left of 64.  `visiting` holds the structs and enums
that are being entered, with their arguments. -/
def coverageType (registry : Registry) : (levels : Nat) → (visiting : List Ty) → Ty → CoverageType
  | 0, _, _ => .opened
  | levels + 1, visiting, ty =>
    match ty with
    | .app .bool _ => .finite [(.bool false, []), (.bool true, [])]
    | .app .option [value] =>
      .finite [(.variant "Some", [coverageType registry levels visiting value]),
        (.variant "None", [])]
    | .app .result [ok, error] =>
      .finite [(.variant "Ok", [coverageType registry levels visiting ok]),
        (.variant "Err", [coverageType registry levels visiting error])]
    | .app (.struct id) arguments =>
      if ty ∈ visiting then
        .opened
      else
        match registry.structs.lookup id with
        | some info =>
          .finite [(.struct (registry.structName id), (sortByName info.fields).map fun field =>
            coverageType registry levels (ty :: visiting)
              (substitute (info.generics.zip arguments) field.2))]
        | none => .opened
    | .app (.enum id) arguments =>
      if ty ∈ visiting then
        .opened
      else
        match registry.enums.lookup id with
        | some info =>
          .finite ((sortByName info.variants).map fun variant =>
            (.variant variant.1, variant.2.map fun payload =>
              coverageType registry levels (ty :: visiting)
                (substitute (info.generics.zip arguments) payload)))
        | none => .opened
    | _ => .opened

/-! ## Usefulness -/

/-- The rows that can still apply to values of a constructor, with its arguments in front. -/
def specializeMatrix (matrix : List (List CoveragePattern)) (constructor : CoverageConstructor)
    (arity : Nat) : List (List CoveragePattern) :=
  matrix.filterMap fun
    | [] => none
    | .wildcard :: rest => some (List.replicate arity .wildcard ++ rest)
    | .constructor candidate arguments :: rest =>
      if candidate = constructor then some (arguments ++ rest) else none

def defaultMatrix (matrix : List (List CoveragePattern)) : List (List CoveragePattern) :=
  matrix.filterMap fun
    | .wildcard :: rest => some rest
    | _ => none

/-- The shapes of a constructor's arguments; none if the type is open or does not have it. -/
def fieldsOf (constructor : CoverageConstructor) : CoverageType → List CoverageType
  | .finite constructors => (constructors.lookup constructor).getD []
  | .opened => []

/-- `pattern_is_useful` with `steps` steps left of 128; `none` where `types[0]` is out of
range. -/
def patternIsUseful : (steps : Nat) → List (List CoveragePattern) → List CoveragePattern →
    List CoverageType → Option Bool
  | 0, _, _, _ => some true
  | _ + 1, matrix, [], _ => some matrix.isEmpty
  | _ + 1, _, _ :: _, [] => none
  | steps + 1, matrix, .constructor constructor arguments :: rest, ty :: types =>
    let fields := fieldsOf constructor ty
    patternIsUseful steps (specializeMatrix matrix constructor fields.length)
      (arguments ++ rest) (fields ++ types)
  | steps + 1, matrix, .wildcard :: rest, .finite constructors :: types =>
    constructors.anyM fun (constructor, fields) =>
      patternIsUseful steps (specializeMatrix matrix constructor fields.length)
        (List.replicate fields.length .wildcard ++ rest) (fields ++ types)
  | steps + 1, matrix, .wildcard :: rest, .opened :: types =>
    patternIsUseful steps (defaultMatrix matrix) rest types

/-! ## `MatchCoverage` -/

structure MatchCoverage where
  ty : CoverageType
  rows : List (List CoveragePattern)

/-- The errors of a match.  `indexOutOfRange` stands for the panic of an indexing step. -/
inductive MatchError
  | pattern (error : PatternError)
  | unreachableArm
  | nonExhaustive (missing : Option (List String))
  | indexOutOfRange

def coverageConstructorName : CoverageConstructor → String
  | .variant name | .struct name => name
  | .bool value => toString value
  | .integer value => toString value
  | .negativeInteger value => toString value
  | .string value => value.quote
  | .character value => value.quote

namespace MatchCoverage

def new (registry : Registry) (expected : Ty) : MatchCoverage :=
  { ty := coverageType registry 64 [] expected, rows := [] }

def add (coverage : MatchCoverage) (pattern : CoveragePattern) (contributes : Bool) :
    Except MatchError MatchCoverage :=
  match patternIsUseful 128 coverage.rows [pattern] [coverage.ty] with
  | none => .error .indexOutOfRange
  | some false => .error .unreachableArm
  | some true =>
    if contributes then .ok { coverage with rows := coverage.rows ++ [[pattern]] }
    else .ok coverage

def anyOf (constructor : CoverageConstructor) (fields : List CoverageType) : CoveragePattern :=
  .constructor constructor (List.replicate fields.length .wildcard)

/-- The constructors of which some value is not covered. -/
def missing (coverage : MatchCoverage) :
    List (CoverageConstructor × List CoverageType) → Option (List String)
  | [] => some []
  | (constructor, fields) :: constructors => do
      let useful ← patternIsUseful 128 coverage.rows [anyOf constructor fields] [coverage.ty]
      let names ← coverage.missing constructors
      some (if useful then coverageConstructorName constructor :: names else names)

def finish (coverage : MatchCoverage) : Except MatchError Unit :=
  match patternIsUseful 128 coverage.rows [.wildcard] [coverage.ty] with
  | none => .error .indexOutOfRange
  | some false => .ok ()
  | some true =>
    match coverage.ty with
    | .finite constructors =>
      match coverage.missing constructors with
      | none => .error .indexOutOfRange
      | some names => .error (.nonExhaustive (some (names.mergeSort fun a b => decide (a ≤ b))))
    | .opened => .error (.nonExhaustive none)

end MatchCoverage

structure Arm where
  pattern : Pattern
  guarded : Bool

/-- The arms of a match, one after the other: check the pattern, then add it; an arm with a
guard contributes nothing. -/
def checkArms (registry : Registry) (scrutinee : Ty) :
    MatchCoverage → List Arm → Except MatchError MatchCoverage
  | coverage, [] => .ok coverage
  | coverage, arm :: arms =>
    match checkPattern registry arm.pattern scrutinee with
    | .error error => .error (.pattern error)
    | .ok (pattern, _) =>
      match coverage.add pattern (!arm.guarded) with
      | .error error => .error error
      | .ok coverage => checkArms registry scrutinee coverage arms

/-- The `match` arm of `check_expression`, without the types of guards and results. -/
def checkMatch (registry : Registry) (scrutinee : Ty) (arms : List Arm) :
    Except MatchError Unit :=
  match checkArms registry scrutinee (.new registry scrutinee) arms with
  | .error error => .error error
  | .ok coverage => coverage.finish

end Disp.Patterns

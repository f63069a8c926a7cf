import Disp.Arithmetic.Expressions
import Disp.Constants.Evaluate

/-!
# The types of constants

The checker's `check_expression` on the expressions that may stand in a constant, and the
`const` case of `check_statement`.  A local variable that is not a constant has no type here,
since no constant may mention it.
-/

namespace Disp.Constants

open Disp.Arithmetic (checkBinary checkUnary isIntLiteral isFloatLiteral TypeError)
open Disp.Patterns (Checked MatchError PatternError Registry checkMatch checkPattern sortByName)
open Disp.TypeChecker

inductive CheckError
  | operator (error : TypeError)
  | pattern (error : PatternError)
  | coverage (error : MatchError)
  | mismatch (context : String) (expected actual : Ty)
  | unknownName (name : String)
  | emptyArray
  | notStruct (name : String)
  | duplicateField (field : String)
  | noField (name field : String)
  | conflictingArguments
  | missingField (field name : String)
  | uninferredArgument (argument name : String)
  | fieldOf (ty : Ty)
  | qualifiedVariant (variant : String)
  | incompleteType
  | literalTooLarge
  | strView
  | notConstant

def requireSame (context : String) (expected actual : Ty) : Except CheckError Unit :=
  if typesCompatible expected actual then .ok () else .error (.mismatch context expected actual)

/-! ## Types of composed expressions -/

/-- The type of an array, from the types of its elements. -/
def arrayType : List Ty → Except CheckError Ty
  | [] => .error .emptyArray
  | first :: rest => do
      let element :=
        match first with
        | .app (.intLiteral value) xs =>
          if value ≤ 2 ^ 63 - 1 then .int else .app (.intLiteral value) xs
        | .app .floatLiteral _ => .app .float []
        | other => other
      rest.forM (requireSame "array element" element)
      .ok (.app (.array (rest.length + 1)) [element])

def structNamed (registry : Registry) (name : String) : Option (Nat × StructInfo) :=
  registry.structs.find? fun entry => registry.structName entry.1 = name

/-- The fields of a construction, one after the other: known, given once, and of a type that the
declared one takes once the generic names are inferred. -/
def fieldTypes (info : StructInfo) (name : String) :
    List String → Substitutions → List (String × Ty) →
      Except CheckError (List String × Substitutions)
  | provided, substitutions, [] => .ok (provided, substitutions)
  | provided, substitutions, (field, actual) :: fields =>
    if provided.contains field then
      .error (.duplicateField field)
    else
      match info.fields.lookup field with
      | none => .error (.noField name field)
      | some expected =>
        match inferSubstitutions expected actual substitutions with
        | none => .error .conflictingArguments
        | some substitutions => do
            requireSame "struct field" (substitute substitutions expected) actual
            fieldTypes info name (field :: provided) substitutions fields

def genericArgument (name : String) (substitutions : Substitutions) (argument : String) :
    Except CheckError Ty :=
  match substitutions.lookup argument with
  | some ty => .ok ty
  | none => .error (.uninferredArgument argument name)

/-- The type of a construction, from the types of its fields. -/
def constructType (id : Nat) (info : StructInfo) (name : String) (given : List (String × Ty)) :
    Except CheckError Ty := do
  let (provided, substitutions) ← fieldTypes info name [] [] given
  match (sortByName info.fields).find? (!provided.contains ·.1) with
  | some missing => .error (.missingField missing.1 name)
  | none =>
    let arguments ← info.generics.mapM (genericArgument name substitutions)
    .ok (.app (.struct id) arguments)

/-- The declared type of a struct's field with the arguments in place. -/
def declaredField (registry : Registry) (id : Nat) (arguments : List Ty) (field : String) :
    Option Ty := do
  let info ← registry.structs.lookup id
  let ty ← info.fields.lookup field
  return substitute (info.generics.zip arguments) ty

/-- The type of a field; a reference is looked through. -/
def fieldType (registry : Registry) (object : Ty) (field : String) : Except CheckError Ty :=
  let object :=
    match object with
    | .app (.reference _) [inner] => inner
    | other => other
  match object with
  | .app (.struct id) arguments =>
    match declaredField registry id arguments field with
    | some ty => .ok ty
    | none => .error (.noField (registry.structName id) field)
  | _ => .error (.fieldOf object)

def namesEnum {F : Type} (registry : Registry) : Expr F → Bool
  | .identifier name => registry.enums.any fun entry => registry.enumName entry.1 == name
  | _ => false

/-- Constructors whose arguments `merge_types` merges. -/
def mergesArguments : Con → Con → Bool
  | .array a, .array b => a == b
  | .option, .option | .list, .list | .thread, .thread | .future, .future | .task, .task
  | .mutex, .mutex | .mutexGuard, .mutexGuard | .channel, .channel | .map, .map | .set, .set
  | .result, .result => true
  | _, _ => false

mutual

def mergeTypes : Ty → Ty → Ty
  | .app c xs, .app d ys =>
    if c = .infer then .app d ys
    else if d = .infer then .app c xs
    else if isIntLiteral (.app c xs) && isIntLiteral (.app d ys) then .int
    else if isFloatLiteral (.app c xs) && isFloatLiteral (.app d ys) then .app .float []
    else if mergesArguments c d then .app c (mergeAll xs ys)
    else .app c xs
  | .app c xs, .generic name => if c = .infer then .generic name else .app c xs
  | .generic name, _ => .generic name

def mergeAll : List Ty → List Ty → List Ty
  | x :: xs, y :: ys => mergeTypes x y :: mergeAll xs ys
  | xs, _ => xs

end

/-- The type of a match after one more arm. -/
def mergeArm (result : Option Ty) (arm : Ty) : Except CheckError Ty :=
  match result with
  | none => .ok arm
  | some expected => do
      let merged := mergeTypes expected arm
      requireSame "match arm" merged expected
      requireSame "match arm" merged arm
      .ok merged

def patternOf (registry : Registry) (pattern : Disp.Patterns.Pattern) (scrutinee : Ty) :
    Except CheckError Checked :=
  (checkPattern registry pattern scrutinee).mapError .pattern

/-! ## Expressions -/

abbrev Types := List (String × Option Ty)

def boundTypes (bindings : List (String × Ty)) : Types :=
  bindings.map fun (name, ty) => (name, some ty)

section Check

variable {F : Type}

mutual

/-- `check_expression`.  A constant that is named like an enum, with a field that is named, is
rejected: the checker takes it for a variant of the enum, and evaluation for a field. -/
def typeOf (registry : Registry) (types : Types) : Expr F → Except CheckError Ty
  | .integer value => .ok (.intLiteral value)
  | .float _ => .ok (.app .floatLiteral [])
  | .string _ => .ok (.app .string [])
  | .character _ => .ok (.app .char [])
  | .bool _ => .ok .bool
  | .identifier name =>
    match types.lookup name with
    | some (some ty) => .ok ty
    | _ => .error (.unknownName name)
  | .array values => do
      let tys ← typeAll registry types values
      arrayType tys
  | .structConstruct name fields =>
    match structNamed registry name with
    | none => .error (.notStruct name)
    | some (id, info) => do
        let given ← typeFields registry types fields
        constructType id info name given
  | .fieldAccess object field =>
    if namesEnum registry object then
      .error (.qualifiedVariant field)
    else do
      let ty ← typeOf registry types object
      fieldType registry ty field
  | .unary op operand => do
      let ty ← typeOf registry types operand
      (checkUnary op ty).mapError .operator
  | .binary left op right => do
      let leftTy ← typeOf registry types left
      let rightTy ← typeOf registry types right
      (checkBinary op leftTy rightTy).mapError .operator
  | .matchArms value arms => do
      let scrutinee ← typeOf registry types value
      (checkMatch registry scrutinee (arms.map fun arm => ⟨arm.1, arm.2.1.isSome⟩)).mapError
        .coverage
      typeArms registry types scrutinee none arms
  | .other => .error .notConstant

def typeAll (registry : Registry) (types : Types) : List (Expr F) → Except CheckError (List Ty)
  | [] => .ok []
  | value :: values => do
      let ty ← typeOf registry types value
      let tys ← typeAll registry types values
      .ok (ty :: tys)

def typeFields (registry : Registry) (types : Types) :
    List (String × Expr F) → Except CheckError (List (String × Ty))
  | [] => .ok []
  | (name, value) :: fields => do
      let ty ← typeOf registry types value
      let given ← typeFields registry types fields
      .ok ((name, ty) :: given)

/-- The arms of a match; without any, it has the type of `()`. -/
def typeArms (registry : Registry) (types : Types) (scrutinee : Ty) (result : Option Ty) :
    List (Disp.Patterns.Pattern × Option (Expr F) × Expr F) → Except CheckError Ty
  | [] => .ok (result.getD (.app .unit []))
  | (pattern, none, value) :: arms => do
      let (_, bindings) ← patternOf registry pattern scrutinee
      let ty ← typeOf registry (boundTypes bindings ++ types) value
      let merged ← mergeArm result ty
      typeArms registry types scrutinee (some merged) arms
  | (pattern, some guard, value) :: arms => do
      let (_, bindings) ← patternOf registry pattern scrutinee
      let guardTy ← typeOf registry (boundTypes bindings ++ types) guard
      requireSame "match guard" .bool guardTy
      let ty ← typeOf registry (boundTypes bindings ++ types) value
      let merged ← mergeArm result ty
      typeArms registry types scrutinee (some merged) arms

end

/-! ## Constants -/

mutual

/-- `is_constant_expression`: the names must be those of constants, also where a pattern binds
them. -/
def isConstantExpression (types : Types) : Expr F → Bool
  | .integer _ | .float _ | .string _ | .character _ | .bool _ => true
  | .identifier name => ((types.lookup name).bind id).isSome
  | .array values => allConstant types values
  | .structConstruct _ fields => fieldsConstant types fields
  | .fieldAccess object _ => isConstantExpression types object
  | .unary _ operand => isConstantExpression types operand
  | .binary left _ right => isConstantExpression types left && isConstantExpression types right
  | .matchArms value arms => isConstantExpression types value && armsConstant types arms
  | .other => false

def allConstant (types : Types) : List (Expr F) → Bool
  | [] => true
  | value :: values => isConstantExpression types value && allConstant types values

def fieldsConstant (types : Types) : List (String × Expr F) → Bool
  | [] => true
  | (_, value) :: fields => isConstantExpression types value && fieldsConstant types fields

def armsConstant (types : Types) :
    List (Disp.Patterns.Pattern × Option (Expr F) × Expr F) → Bool
  | [] => true
  | (_, none, value) :: arms => isConstantExpression types value && armsConstant types arms
  | (_, some guard, value) :: arms =>
    isConstantExpression types guard && isConstantExpression types value &&
      armsConstant types arms

end

/-- Constructors that `contains_infer` looks into. -/
def carriesInfer : Con → Bool
  | .option | .array _ | .slice | .list | .thread | .future | .task | .mutex | .mutexGuard
  | .channel | .map | .set | .result | .function | .cFunction | .reference _ | .rawPointer _
  | .memoryPointer _ => true
  | _ => false

mutual

def containsInfer : Ty → Bool
  | .generic _ => false
  | .app c xs => c == .infer || carriesInfer c && anyInfer xs

def anyInfer : List Ty → Bool
  | [] => false
  | x :: xs => containsInfer x || anyInfer xs

end

def inferredType (inferred : Ty) : Except CheckError Ty :=
  if containsInfer inferred then .error .incompleteType
  else if isIntLiteral (materializeLiteral inferred) then .error .literalTooLarge
  else .ok (materializeLiteral inferred)

/-- The type of an annotated binding. -/
def annotatedType (annotated : Option Ty) (inferred : Ty) : Except CheckError Ty :=
  match annotated with
  | some declared => do
      requireSame "binding initializer" declared inferred
      .ok declared
  | none => inferredType inferred

/-- The `const` case of `check_statement`: the type of the constant. -/
def constantType (registry : Registry) (types : Types) (annotated : Option Ty) (value : Expr F) :
    Except CheckError Ty := do
  let inferred ← typeOf registry types value
  let ty ← annotatedType annotated inferred
  if ty = .app .str [] then
    .error .strView
  else if isConstantExpression types value then
    .ok ty
  else
    .error .notConstant

end Check

end Disp.Constants

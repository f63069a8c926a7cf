import Disp.Dispatch.Program
import Disp.Library.IndexedSearch

/-!
# The four searches for a method

Type checking, HIR lowering, ownership checking and interpretation each look a
method up in the list of implementation blocks, by a criterion of their own:
the checker by matching the target type and its constraints, lowering by the
first block whose target unifies, the ownership checker by the first block with
the target's name, the interpreter by the only block of that name that has the
method.
-/

namespace Disp.Dispatch

open Disp.TypeChecker Disp.Library.IndexedSearch

/-! ## The type checker -/

/-- What the checker keeps of an implementation block. -/
structure ImplInfo where
  traitName : String
  target : Ty
  constraints : List (String × List String)

inductive ImplError
  | inherent
  | unknownType
  | unconstrainedGeneric (name : String)
  | unknownTrait (name : String)
  | conflicting (traitName : String)
  | methodsDiffer (traitName : String)

mutual

def containsGeneric (name : String) : Ty → Bool
  | .generic generic => generic == name
  | .app _ arguments => anyContainsGeneric name arguments

def anyContainsGeneric (name : String) : List Ty → Bool
  | [] => false
  | x :: xs => containsGeneric name x || anyContainsGeneric name xs

end

def copyTrait : Trait := ⟨"Copy", [], []⟩

def Program.findTrait (program : Program) (name : String) : Option Trait :=
  (copyTrait :: program.traits).find? (·.name == name)

def Implementation.findMethod (block : Implementation) (name : String) : Option Method :=
  block.methods.find? (·.name == name)

def TypeHead.text : TypeHead → String
  | .named name => name
  | .array length => s!"[;{length}]"

/-- One step of the checker's pass over `program.implementations`. -/
def registerImplementation (program : Program) (registered : List ImplInfo)
    (block : Implementation) : Except ImplError ImplInfo :=
  let generics := block.generics.map (·.name)
  match resolveType program generics block.target, block.traitName with
  | none, _ => .error .unknownType
  | some _, none => .error .inherent
  | some target, some (.mk head traitArguments _) =>
    match resolveTypes program generics traitArguments with
    | none => .error .unknownType
    | some resolved =>
      match generics.find? fun generic =>
          !containsGeneric generic target && !anyContainsGeneric generic resolved with
      | some generic => .error (.unconstrainedGeneric generic)
      | none =>
        match program.findTrait head.text with
        | none => .error (.unknownTrait head.text)
        | some declaration =>
          if registered.any fun existing =>
              existing.traitName == head.text && typesOverlap existing.target target then
            .error (.conflicting head.text)
          else if (block.methods.map (·.name)).Nodup ∧
              (∀ method ∈ block.methods, method.name ∈ declaration.methods.map (·.name)) ∧
              (∀ method ∈ declaration.methods, method.name ∈ block.methods.map (·.name)) then
            .ok ⟨head.text, target, block.generics.map fun g => (g.name, g.constraints)⟩
          else
            .error (.methodsDiffer head.text)

/-- The checker's list of implementations, in program order. -/
def registerAll (program : Program) :
    List Implementation → List ImplInfo → Except ImplError (List ImplInfo)
  | [], registered => .ok registered
  | block :: blocks, registered =>
    match registerImplementation program registered block with
    | .error problem => .error problem
    | .ok info => registerAll program blocks (registered ++ [info])

abbrev GenericTypes := List (String × List String)

/-- Constraint queries being answered; meeting one again answers it with `false`. -/
abbrev Visiting := List (String × Ty)

section Constraints

variable (implementations : List ImplInfo) (genericTypes : GenericTypes)

mutual

/-- `type_satisfies_constraint_inner`; a query that runs out of fuel fails. -/
def typeSatisfies : Nat → Visiting → Ty → String → Bool
  | 0, _, _, _ => false
  | _ + 1, _, .generic name, requirement =>
    (genericTypes.lookup name).any (·.contains requirement)
  | fuel + 1, visiting, .app con arguments, requirement =>
    let ty := Ty.app con arguments
    if requirement = "Copy" ∧ typeIsCopy fuel visiting ty then
      true
    else if (requirement, ty) ∈ visiting then
      false
    else
      implementations.any fun block =>
        block.traitName == requirement &&
          implementationApplies fuel ((requirement, ty) :: visiting) block ty

/-- `type_is_copy_inner`. -/
def typeIsCopy : Nat → Visiting → Ty → Bool
  | 0, _, _ => false
  | _ + 1, _, .generic _ => false
  | fuel + 1, visiting, .app con arguments =>
    match con, arguments with
    | .int, _ | .intLiteral _, _ | .negativeIntLiteral _, _ | .uint, _ | .signed _, _
    | .unsigned _, _ | .float, _ | .float32, _ | .floatLiteral, _ | .char, _ | .bool, _
    | .instant, _ | .duration, _ | .ipAddress, _ | .cStr, _ | .unit, _
    | .reference false, _ | .rawPointer _, _ | .memoryPointer _, _ | .cFunction, _ => true
    | .option, [value] => typeIsCopy fuel visiting value
    | .result, [ok, error] =>
      typeIsCopy fuel visiting ok && typeIsCopy fuel visiting error
    | .struct _, _ | .enum _, _ =>
      let ty := Ty.app con arguments
      if ("Copy", ty) ∈ visiting then
        false
      else
        implementations.any fun block =>
          block.traitName == "Copy" &&
            implementationApplies fuel (("Copy", ty) :: visiting) block ty
    | _, _ => false

/-- `implementation_applies_inner`: the target matches the concrete type, and every
generic name of the block is inferred and satisfies its constraints. -/
def implementationApplies : Nat → Visiting → ImplInfo → Ty → Bool
  | 0, _, _, _ => false
  | fuel + 1, visiting, block, concrete =>
    match inferSubstitutions block.target concrete [] with
    | none => false
    | some inferred =>
      typesCompatible (substitute inferred block.target) concrete &&
        block.constraints.all fun (generic, constraints) =>
          match inferred.lookup generic with
          | none => false
          | some argument =>
            constraints.all (typeSatisfies fuel visiting argument)

end

end Constraints

/-- A method the checker may call: of an implementation block, or of a trait that
bounds a generic receiver. -/
inductive Candidate
  | implementation (index : Nat)
  | bound (traitName : String)
  deriving DecidableEq, Repr

inductive MethodError
  | unknownType
  | ambiguous (field : String)
  | noMethod (field : String)

def methodCandidates (program : Program) (implementations : List ImplInfo)
    (genericTypes : GenericTypes) (fuel : Nat) (receiver : Ty) (field : String) :
    List Candidate :=
  ((allHits (fun block =>
      match (program.findTrait block.traitName).bind (·.methods.find? (·.name == field)) with
      | none => none
      | some method =>
        if implementationApplies implementations genericTypes fuel [] block receiver then
          some method
        else
          none)
    implementations 0).map fun (index, _) => .implementation index) ++
  match receiver with
  | .generic name =>
    ((genericTypes.lookup name).getD []).filterMap fun traitName =>
      ((program.findTrait traitName).bind (·.methods.find? (·.name == field))).map
        fun _ => .bound traitName
  | .app _ _ => []

/-- The candidate the checker calls; more than one is an error. -/
def selectMethod (program : Program) (implementations : List ImplInfo)
    (genericTypes : GenericTypes) (fuel : Nat) (receiver : Ty) (field : String) :
    Except MethodError Candidate :=
  match methodCandidates program implementations genericTypes fuel receiver field with
  | [] => .error (.noMethod field)
  | [candidate] => .ok candidate
  | _ => .error (.ambiguous field)

/-- A call of `field` on a receiver of a written type, in a function whose generic
names have the given constraints. -/
def checkMethodCall (program : Program) (implementations : List ImplInfo)
    (genericTypes : GenericTypes) (fuel : Nat) (receiver : TypeName) (field : String) :
    Except MethodError Candidate :=
  match resolveType program (genericTypes.map (·.1)) receiver with
  | none => .error .unknownType
  | some ty => selectMethod program implementations genericTypes fuel ty field

/-! ## HIR lowering -/

inductive ReceiverMode
  | shared
  | mutable
  | move
  deriving DecidableEq, Repr

/-- How a method takes its receiver, from the qualifier of its first parameter. -/
def Method.receiverMode (method : Method) : ReceiverMode :=
  match (method.parameters.head?.map (·.qualifier)).getD .owned with
  | .sharedReference => .shared
  | .mutableReference => .mutable
  | _ => .move

inductive CallTarget
  | traitMethod (traitName : String) (method : Method)
  | function (block : Nat) (method : Method)

/-- Constructors whose arguments `infer_hir_type` descends into. -/
def unifiesArguments : Con → Con → Bool
  | .function, _ | .cFunction, _ => false
  | c, d => c.infersArguments d

mutual

/-- `infer_hir_type`: exact matching, each generic name bound to one type. -/
def inferHirType : Ty → Ty → Substitutions → Option Substitutions
  | .generic name, concrete, inferred =>
    match inferred.lookup name with
    | some previous => if previous = concrete then some inferred else none
    | none => some ((name, concrete) :: inferred)
  | .app c xs, .app d ys, inferred =>
    if unifiesArguments c d && xs.length == ys.length then
      inferAllHir xs ys inferred
    else if c = d ∧ xs = ys then
      some inferred
    else
      none
  | .app _ _, .generic _, _ => none

def inferAllHir : List Ty → List Ty → Substitutions → Option Substitutions
  | x :: xs, y :: ys, inferred => (inferHirType x y inferred).bind (inferAllHir xs ys)
  | _, _, inferred => some inferred

end

def Program.hirNominal (program : Program) (head : TypeHead) : Con → Bool
  | .struct id => program.structId head.text == some id
  | .enum id => program.enumId head.text == some id
  | _ => false

/-- The tests `resolve_method` makes on a block before it takes its method: the
target's name is the receiver's nominal type, and the lowered target unifies
with the receiver. -/
def hirApplies (program : Program) (receiver : Ty) (block : Implementation) : Bool :=
  let concrete :=
    match receiver with
    | .app (.reference _) [inner] => inner
    | other => other
  match concrete with
  | .app con _ =>
    program.hirNominal block.target.head con &&
      (inferHirType (lowerType program block.target) concrete []).isSome
  | .generic _ => false

/-- `resolve_method`: the target of a call and the mode of its receiver.  A method of
a trait bound comes first; a generic receiver without bounds has no method. -/
def resolveMethod (program : Program) (genericTraits : List (String × List String))
    (receiver : Ty) (name : String) : Option (CallTarget × ReceiverMode) :=
  match receiver with
  | .generic generic =>
    (genericTraits.lookup generic).bind fun traits =>
      traits.findSome? fun traitName =>
        ((program.findTrait traitName).bind (·.methods.find? (·.name == name))).map
          fun method => (.traitMethod traitName method, method.receiverMode)
  | .app _ _ =>
    (firstHit (fun block =>
      if hirApplies program receiver block then block.findMethod name else none)
      program.implementations 0).map
      fun (index, method) => (.function index method, method.receiverMode)

/-! ## The ownership checker -/

/-- The types `find_method` tells apart. -/
inductive OwnershipTy
  | generic (name : String)
  | named (name : String)
  | reference (inner : OwnershipTy)
  | other

/-- The name whose implementations `find_method` searches. -/
def OwnershipTy.receiverName : OwnershipTy → Option String
  | .named name => some name
  | .reference (.named name) => some name
  | _ => none

/-- Where `find_method` takes the method from, with the method. -/
def findMethod (program : Program) (genericTraits : List (String × List String))
    (receiver : OwnershipTy) (name : String) : Option (Candidate × Method) :=
  match receiver with
  | .generic generic =>
    (genericTraits.lookup generic).bind fun traits =>
      traits.findSome? fun traitName =>
        ((program.findTrait traitName).bind (·.methods.find? (·.name == name))).map
          fun method => (.bound traitName, method)
  | receiver =>
    receiver.receiverName.bind fun receiverName =>
      (firstHit (fun block =>
        if block.target.head.text = receiverName then some block else none)
        program.implementations 0).bind
        fun (index, block) => (block.findMethod name).map fun method =>
          (.implementation index, method)

/-- How the ownership checker uses the receiver of a call. -/
inductive ReceiverUse
  | consume
  | borrow (mutable : Bool)
  | read
  deriving DecidableEq, Repr

/-- The use a method asks for, from the qualifier of its first parameter. -/
def Method.receiverUse (method : Method) : ReceiverUse :=
  match (method.parameters.head?.map (·.qualifier)).getD .owned with
  | .owned => .consume
  | .sharedReference => .borrow false
  | .mutableReference => .borrow true
  | .rawConstPointer | .rawMutPointer => .read

/-- The use the checker enforces: a receiver whose method it does not find is read. -/
def checkReceiver (program : Program) (genericTraits : List (String × List String))
    (receiver : OwnershipTy) (name : String) : ReceiverUse :=
  match findMethod program genericTraits receiver name with
  | some (_, method) => method.receiverUse
  | none => .read

/-! ## The interpreter -/

/-- The methods an evaluated method call collects, from every block whose target has
the receiver's type name. -/
def collectMethods (program : Program) (receiverName field : String) :
    List (Nat × Method) :=
  allHits (fun block =>
    if block.target.head.text = receiverName then block.findMethod field else none)
    program.implementations 0

def runMethod (program : Program) (receiverName field : String) : Option (Nat × Method) :=
  match collectMethods program receiverName field with
  | [selected] => some selected
  | _ => none

end Disp.Dispatch

import Disp.Dispatch.Agreement
import Disp.Dispatch.Coherence

/-!
# Copy types in three stages

The type checker, the ownership checker and the intermediate representation each have
types of their own, read them from the written type in their own way and decide by a
recursion of their own whether a value is copied or moved.  The type checker asks its
implementations, the ownership checker the names of their targets, the intermediate
representation their lowered targets.
-/

namespace Disp.Dispatch

def TypeName.arguments : TypeName → List TypeName
  | .mk _ arguments _ => arguments

end Disp.Dispatch

namespace Disp.Copying

open Disp.TypeChecker Disp.Dispatch

/-- How a constructor decides: by itself, by all its parts, or by the implementations. -/
inductive CopyRule
  | always
  | never
  | parts
  | declared
  deriving DecidableEq, Repr

/-! ## Implementations of `Copy` -/

def implementsCopy (block : Implementation) : Bool :=
  block.traitName.any (·.head.text == "Copy")

def declaredGenerics (program : Program) (name : String) : Option (List GenericParameter) :=
  ((program.structs.find? (·.name == name)).map (·.generics)).or
    ((program.enums.find? (·.name == name)).map (·.generics))

def blockConstraints (block : Implementation) (name : String) : Option (List String) :=
  (block.generics.reverse.find? (·.name == name)).map (·.constraints)

/-- The arguments of a target are generic names of the block, each used once and each with
the constraints of the declaration. -/
def coversArguments (block : Implementation) :
    List String → List (TypeName × GenericParameter) → Bool
  | _, [] => true
  | used, (argument, declaration) :: rest =>
    argument.qualifier == .owned && argument.arguments.isEmpty &&
      !used.contains argument.head.text &&
      (blockConstraints block argument.head.text).any (fun actual =>
        actual.all (declaration.constraints.contains ·) &&
          declaration.constraints.all (actual.contains ·)) &&
      coversArguments block (argument.head.text :: used) rest

/-- The block covers every permitted instantiation of the type its target names; a target
that is not declared stops the compiler. -/
def coversDeclaration (program : Program) (block : Implementation) : Bool :=
  match declaredGenerics program block.target.head.text with
  | none => false
  | some generics =>
    block.target.arguments.length == generics.length &&
      block.generics.length == generics.length &&
      coversArguments block [] (block.target.arguments.zip generics)

/-- The first loop of `validate_copy_implementations`. -/
def validateCopyImplementations (program : Program) : Bool :=
  (program.implementations.filter implementsCopy).all (coversDeclaration program)

/-! ## The ownership checker -/

/-- The constructors of the ownership checker's types. -/
inductive OwnerCon
  | copy
  | owned (name : String)
  | nominal (name : String)
  | generic (name : String)
  | reference (mutable : Bool)
  | rawPointer (mutable : Bool)
  | memoryPointer (mutable : Bool)
  | option
  | result
  | array
  | slice
  | list
  | map
  | set
  | thread
  | future
  | task
  | mutex
  | mutexGuard
  | channel
  | atomicInt
  | str
  | cString
  | cStr
  | cRegistration
  | memory
  | path
  | url
  | json
  | ipAddress
  | socketAddress
  | tcpStream
  | tlsStream
  | httpRequest
  | httpResponse
  | tcpListener
  | udpSocket
  | udpDatagram
  | instant
  | duration
  | function
  | unit
  deriving DecidableEq, Repr

inductive OwnerTy
  | app (con : OwnerCon) (arguments : List OwnerTy)
  deriving Repr

/-- The names that `ty_from_name` knows, with the number of arguments it keeps; a name
that keeps none is known with any number of them. -/
def ownerTypes : List (String × OwnerCon × Nat) :=
  [("i8", .copy, 0), ("i16", .copy, 0), ("i32", .copy, 0), ("i64", .copy, 0),
   ("i128", .copy, 0), ("u8", .copy, 0), ("u16", .copy, 0), ("u32", .copy, 0),
   ("u64", .copy, 0), ("u128", .copy, 0), ("int", .copy, 0), ("uint", .copy, 0),
   ("f32", .copy, 0), ("f64", .copy, 0), ("bool", .copy, 0), ("char", .copy, 0),
   ("Unit", .copy, 0), ("Option", .option, 1), ("Result", .result, 2), ("[]", .slice, 1),
   ("List", .list, 1), ("Map", .map, 2), ("Set", .set, 1), ("Thread", .thread, 1),
   ("Future", .future, 1), ("Task", .task, 1), ("Mutex", .mutex, 1),
   ("MutexGuard", .mutexGuard, 1), ("Channel", .channel, 1), ("AtomicInt", .atomicInt, 0),
   ("str", .str, 0), ("CString", .cString, 0), ("CStr", .cStr, 0),
   ("CRegistration", .cRegistration, 0), ("Memory", .memory, 0),
   ("MemoryPtr", .memoryPointer false, 1), ("MemoryMutPtr", .memoryPointer true, 1),
   ("CInt", .copy, 0), ("CUInt", .copy, 0), ("CSize", .copy, 0), ("CSSize", .copy, 0),
   ("CChar", .copy, 0), ("CUChar", .copy, 0), ("CShort", .copy, 0), ("CUShort", .copy, 0),
   ("CLongLong", .copy, 0), ("CULongLong", .copy, 0), ("CFloat", .copy, 0),
   ("CDouble", .copy, 0), ("Path", .path, 0), ("Url", .url, 0), ("Json", .json, 0),
   ("IpAddress", .ipAddress, 0), ("SocketAddress", .socketAddress, 0),
   ("TcpStream", .tcpStream, 0), ("TlsStream", .tlsStream, 0),
   ("HttpRequest", .httpRequest, 0), ("HttpResponse", .httpResponse, 0),
   ("TcpListener", .tcpListener, 0), ("UdpSocket", .udpSocket, 0),
   ("UdpDatagram", .udpDatagram, 0), ("Instant", .instant, 0), ("Duration", .duration, 0)]

/-- The generic names in force at a written type: those of the function, and for a method
those of its implementation block. -/
structure Scope where
  generics : List GenericParameter
  block : Option Implementation

def Scope.genericTypes (scope : Scope) : GenericTypes :=
  (scope.generics ++ (scope.block.map (·.generics)).getD []).map fun g => (g.name, g.constraints)

/-- The generic names that the ownership checker takes for `Copy`: those of the function
alone. -/
def Scope.genericCopy (scope : Scope) : List String :=
  (scope.generics.filter (·.constraints.contains "Copy")).map (·.name)

/-- The names that `ty_from_name` looks for last. -/
def ownerNamed (program : Program) (scope : Scope) (name : String)
    (arguments : List OwnerTy) : OwnerTy :=
  if name ∈ scope.genericCopy then
    .app .copy []
  else if name ∈ program.structs.map (·.name) ∨ name ∈ program.enums.map (·.name) then
    .app (.nominal name) arguments
  else if name.utf8ByteSize = 1 ∧ name.toList.all Char.isUpper then
    .app (.generic name) []
  else
    .app (.owned name) []

/-- The rest of `ty_from_name` for a name that is not in its table. -/
def ownerDeclared (program : Program) (scope : Scope) (name : String)
    (arguments : List OwnerTy) : OwnerTy :=
  match scope.block with
  | some block =>
    if name = "Self" then .app (.owned block.target.head.text) []
    else ownerNamed program scope name arguments
  | none => ownerNamed program scope name arguments

def ownerHead (program : Program) (scope : Scope) : TypeHead → List OwnerTy → OwnerTy
  | .array length, arguments =>
    if arguments.length = 1 then .app .array arguments
    else ownerDeclared program scope (TypeHead.array length).text arguments
  | .named name, arguments =>
    if name = "fn" then
      .app .function []
    else
      match ownerTypes.lookup name with
      | some (con, arity) =>
        if arity = 0 then .app con []
        else if arguments.length = arity then .app con arguments
        else ownerDeclared program scope name arguments
      | none => ownerDeclared program scope name arguments

mutual

/-- `ty_from_name` of the ownership checker. -/
def tyFromName (program : Program) (scope : Scope) : TypeName → OwnerTy
  | .mk head arguments qualifier =>
    let base := ownerHead program scope head (tyFromNames program scope arguments)
    match qualifier with
    | .owned => base
    | .sharedReference => .app (.reference false) [base]
    | .mutableReference => .app (.reference true) [base]
    | .rawConstPointer => .app (.rawPointer false) [base]
    | .rawMutPointer => .app (.rawPointer true) [base]

def tyFromNames (program : Program) (scope : Scope) : List TypeName → List OwnerTy
  | [] => []
  | x :: xs => tyFromName program scope x :: tyFromNames program scope xs

end

/-- The names of the targets of `Copy` implementations. -/
def copyTypes (program : Program) : List String :=
  (program.implementations.filter implementsCopy).map (·.target.head.text)

/-- The arms of `ty_is_copy`, those for names apart. -/
def ownerRule : OwnerCon → CopyRule
  | .copy | .reference false | .rawPointer _ | .memoryPointer _ => .always
  | .reference true => .never
  | .option | .result | .array => .parts
  | .slice | .str | .cStr | .instant | .duration | .ipAddress => .always
  | .owned _ | .nominal _ | .generic _ => .declared
  | .unit => .always
  | _ => .never

mutual

/-- `ty_is_copy` of the ownership checker. -/
def tyIsCopy (program : Program) (scope : Scope) : OwnerTy → Bool
  | .app con arguments =>
    match ownerRule con with
    | .always => true
    | .never => false
    | .parts => allTyIsCopy program scope arguments
    | .declared =>
      match con with
      | .owned name => (copyTypes program).contains name
      | .nominal name =>
        (copyTypes program).contains name && allTyIsCopy program scope arguments
      | .generic name => scope.genericCopy.contains name
      | _ => false

def allTyIsCopy (program : Program) (scope : Scope) : List OwnerTy → Bool
  | [] => true
  | x :: xs => tyIsCopy program scope x && allTyIsCopy program scope xs

end

/-! ## The intermediate representation -/

/-- The nominal types whose `Copy` implementations reach the representation: the built-in
trait has the last identity, which a declared trait of its name takes away. -/
def hirCopyTypes (program : Program) : List Con :=
  if program.traits.any (·.name == "Copy") then
    []
  else
    (program.implementations.filter implementsCopy).filterMap fun block =>
      match lowerType program block.target with
      | .app (.struct id) _ => some (.struct id)
      | .app (.enum id) _ => some (.enum id)
      | _ => none

/-- The arms of `Type::is_copy`. -/
def hirRule : Con → CopyRule
  | .unit | .bool | .char | .int | .uint | .signed _ | .unsigned _ | .float | .float32
  | .instant | .duration | .ipAddress | .reference _ | .rawPointer _ | .memoryPointer _
  | .cFunction => .always
  | .struct _ | .enum _ => .declared
  | .option | .result | .array _ => .parts
  | .slice | .str | .cStr => .always
  | _ => .never

mutual

/-- `Type::is_copy` of the intermediate representation. -/
def isCopy (program : Program) : Ty → Bool
  | .generic _ => false
  | .app con arguments =>
    match hirRule con with
    | .always => true
    | .never => false
    | .parts => allIsCopy program arguments
    | .declared => (hirCopyTypes program).contains con

def allIsCopy (program : Program) : List Ty → Bool
  | [] => true
  | x :: xs => isCopy program x && allIsCopy program xs

end

/-! ## The answers at a written type -/

/-- The qualifier in front of a type, as both readings apply it to `Self`. -/
def qualified : TypeQualifier → Ty → Ty
  | .owned, base => base
  | .sharedReference, base => .app (.reference false) [base]
  | .mutableReference, base => .app (.reference true) [base]
  | .rawConstPointer, base => .app (.rawPointer false) [base]
  | .rawMutPointer, base => .app (.rawPointer true) [base]

/-- `resolve_type_with_self` in a scope: `Self` alone is the block's target. -/
def checkedType (program : Program) (scope : Scope) (ty : TypeName) : Option Ty :=
  match scope.block with
  | some block =>
    if ty.head = .named "Self" ∧ ty.arguments = [] then
      (resolveType program (block.generics.map (·.name)) block.target).map
        (qualified ty.qualifier)
    else
      resolveType program (scope.genericTypes.map (·.1)) ty
  | none => resolveType program (scope.genericTypes.map (·.1)) ty

/-- `lower_type` of a function: `Self` is the block's lowered target. -/
def loweredType (program : Program) (scope : Scope) (ty : TypeName) : Ty :=
  if ty.head = .named "Self" then
    qualified ty.qualifier
      ((scope.block.map fun block => lowerType program block.target).getD (.app .unknown []))
  else
    lowerType program ty

/-- `type_is_copy` of the type checker. -/
def Copies (implementations : List ImplInfo) (genericTypes : GenericTypes) (ty : Ty) : Prop :=
  ∃ fuel, typeIsCopy implementations genericTypes fuel [] ty = true

def ownerCopies (program : Program) (scope : Scope) (ty : TypeName) : Bool :=
  tyIsCopy program scope (tyFromName program scope ty)

def hirCopies (program : Program) (scope : Scope) (ty : TypeName) : Bool :=
  isCopy program (loweredType program scope ty)

end Disp.Copying

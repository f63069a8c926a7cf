import Disp.TypeChecker.Types

/-!
# Programs with traits and implementations

The part of the syntax tree that method dispatch reads, and the two readings of a
written type: `resolve_type` of the type checker and `lower_type` of HIR
lowering.  The two use different tables: the checker looks for a generic name
before a nominal one and checks the number of arguments, lowering takes any name
it does not know for a generic one.
-/

namespace Disp.Dispatch

open Disp.TypeChecker

inductive TypeQualifier
  | owned
  | sharedReference
  | mutableReference
  | rawConstPointer
  | rawMutPointer
  deriving DecidableEq, Repr

/-- The name of a written type; the parser stores `[T; n]` under the name `[;n]`. -/
inductive TypeHead
  | named (name : String)
  | array (length : Nat)
  deriving DecidableEq, Repr

/-- A type as written, with the qualifier in front of it. -/
inductive TypeName
  | mk (head : TypeHead) (arguments : List TypeName) (qualifier : TypeQualifier)
  deriving Repr

namespace TypeName

def head : TypeName → TypeHead
  | .mk head _ _ => head

def qualifier : TypeName → TypeQualifier
  | .mk _ _ qualifier => qualifier

/-- The owned type `name<arguments>`. -/
abbrev owned (name : String) (arguments : List TypeName) : TypeName :=
  .mk (.named name) arguments .owned

end TypeName

structure GenericParameter where
  name : String
  constraints : List String
  deriving Repr

/-- A trait or implementation method; `parameters` are the written types, the
receiver first. -/
structure Method where
  name : String
  parameters : List TypeName
  deriving Repr

structure TypeDeclaration where
  name : String
  generics : List GenericParameter
  deriving Repr

structure Trait where
  name : String
  generics : List GenericParameter
  methods : List Method
  deriving Repr

structure Implementation where
  generics : List GenericParameter
  /-- `none` for an inherent implementation, which the checker rejects. -/
  traitName : Option TypeName
  target : TypeName
  methods : List Method
  deriving Repr

structure Program where
  structs : List TypeDeclaration
  enums : List TypeDeclaration
  traits : List Trait
  implementations : List Implementation
  deriving Repr

namespace Program

def structId (program : Program) (name : String) : Option Nat :=
  program.structs.findIdx? (·.name == name)

def enumId (program : Program) (name : String) : Option Nat :=
  program.enums.findIdx? (·.name == name)

/-- The entry of the checker's `types` table: the constructor and its arity. -/
def nominal (program : Program) (name : String) : Option (Con × Nat) :=
  match program.structId name with
  | some id => some (.struct id, (program.structs[id]?.map (·.generics.length)).getD 0)
  | none =>
    (program.enumId name).map fun id =>
      (.enum id, (program.enums[id]?.map (·.generics.length)).getD 0)

theorem nominal_eq_some {program : Program} {name : String} {con : Con} {arity : Nat}
    (h : program.nominal name = some (con, arity)) :
    (∃ id, program.structId name = some id ∧ con = .struct id ∧
        arity = (program.structs[id]?.map (·.generics.length)).getD 0) ∨
      program.structId name = none ∧ ∃ id, program.enumId name = some id ∧ con = .enum id ∧
        arity = (program.enums[id]?.map (·.generics.length)).getD 0 := by
  rw [nominal] at h
  split at h
  · cases h
    exact .inl ⟨_, ‹_›, rfl, rfl⟩
  · obtain ⟨id, hid, heq⟩ := Option.map_eq_some_iff.mp h
    cases heq
    exact .inr ⟨‹_›, id, hid, rfl, rfl⟩

end Program

/-! ## Built-in names -/

/-- Built-in type names with the number of arguments the checker requires. -/
def builtinTypes : List (String × Con × Nat) :=
  [("CRegistration", .cRegistration, 0), ("int", .int, 0), ("uint", .uint, 0),
   ("f64", .float, 0), ("f32", .float32, 0), ("i8", .signed 8, 0), ("i16", .signed 16, 0),
   ("i32", .signed 32, 0), ("i64", .signed 64, 0), ("i128", .signed 128, 0),
   ("u8", .unsigned 8, 0), ("u16", .unsigned 16, 0), ("u32", .unsigned 32, 0),
   ("u64", .unsigned 64, 0), ("u128", .unsigned 128, 0), ("String", .string, 0),
   ("str", .str, 0), ("CString", .cString, 0), ("CStr", .cStr, 0), ("Memory", .memory, 0),
   ("SecretBytes", .secretBytes, 0), ("AeadEnvelope", .aeadEnvelope, 0),
   ("Ed25519SigningKey", .ed25519SigningKey, 0), ("MemoryPtr", .memoryPointer false, 1),
   ("MemoryMutPtr", .memoryPointer true, 1), ("CInt", .signed 32, 0),
   ("CUInt", .unsigned 32, 0), ("CSize", .uint, 0), ("CSSize", .int, 0),
   ("CChar", .signed 8, 0), ("CUChar", .unsigned 8, 0), ("CShort", .signed 16, 0),
   ("CUShort", .unsigned 16, 0), ("CLongLong", .signed 64, 0),
   ("CULongLong", .unsigned 64, 0), ("CFloat", .float32, 0), ("CDouble", .float, 0),
   ("Path", .path, 0), ("ProcessOutput", .processOutput, 0),
   ("ProcessCommand", .processCommand, 0), ("ChildProcess", .childProcess, 0),
   ("Database", .database, 0), ("DataStore", .dataStore, 0), ("Url", .url, 0),
   ("Json", .json, 0), ("IpAddress", .ipAddress, 0), ("SocketAddress", .socketAddress, 0),
   ("TcpStream", .tcpStream, 0), ("TlsStream", .tlsStream, 0),
   ("HttpRequest", .httpRequest, 0), ("HttpResponse", .httpResponse, 0),
   ("TcpListener", .tcpListener, 0), ("UdpSocket", .udpSocket, 0),
   ("UdpDatagram", .udpDatagram, 0), ("Instant", .instant, 0), ("Duration", .duration, 0),
   ("AtomicInt", .atomicInt, 0), ("[]", .slice, 1), ("List", .list, 1), ("Map", .map, 2),
   ("Set", .set, 1), ("Thread", .thread, 1), ("Future", .future, 1), ("Task", .task, 1),
   ("Mutex", .mutex, 1), ("MutexGuard", .mutexGuard, 1), ("Channel", .channel, 1),
   ("char", .char, 0), ("bool", .bool, 0), ("Unit", .unit, 0), ("Option", .option, 1),
   ("Result", .result, 2)]

def errorTypes : List (String × Con) :=
  [("IoError", .ioError), ("NetworkError", .networkError), ("HttpError", .httpError),
   ("DataError", .dataError), ("CryptoError", .cryptoError),
   ("ConversionError", .conversionError)]

/-! ## The checker's reading -/

/-- The declared names of `resolve_type`: a generic name in scope, or a nominal type
with the right number of arguments. -/
def resolveDeclared (program : Program) (generics : List String) (name : String)
    (arguments : List Ty) : Option Ty :=
  if arguments = [] ∧ name ∈ generics then
    some (.generic name)
  else
    match program.nominal name with
    | some (con, arity) => if arguments.length = arity then some (.app con arguments) else none
    | none => none

/-- `resolve_type` of an unqualified type whose arguments are resolved; associated
projections `Self.Name` do not occur in targets and receivers. -/
def resolveHead (program : Program) (generics : List String) :
    TypeHead → List Ty → Option Ty
  | .array length, arguments =>
    if arguments.length = 1 then some (.app (.array length) arguments) else none
  | .named name, arguments =>
    if name = "fn" ∧ arguments ≠ [] then
      some (.app .function arguments)
    else if name = "CFunction" ∧ arguments.length = 1 then
      match arguments with
      | [.app .function signature] => some (.app .cFunction signature)
      | _ => none
    else
      match builtinTypes.lookup name, errorTypes.lookup name with
      | some (con, arity), _ =>
        if arguments.length = arity then some (.app con arguments)
        else resolveDeclared program generics name arguments
      | none, some con =>
        if arguments = [] then some (.app con [])
        else resolveDeclared program generics name arguments
      | none, none => resolveDeclared program generics name arguments

mutual

/-- `resolve_type` of the type checker; `none` for a rejected type. -/
def resolveType (program : Program) (generics : List String) : TypeName → Option Ty
  | .mk head arguments qualifier =>
    match resolveTypes program generics arguments with
    | none => none
    | some resolved =>
      match qualifier with
      | .owned => resolveHead program generics head resolved
      | .sharedReference =>
        (resolveHead program generics head resolved).map (.app (.reference false) [·])
      | .mutableReference =>
        (resolveHead program generics head resolved).map (.app (.reference true) [·])
      | .rawConstPointer =>
        if head = .named "ptr" ∧ resolved.length = 1 then
          some (.app (.rawPointer false) resolved)
        else
          none
      | .rawMutPointer =>
        if head = .named "ptr" ∧ resolved.length = 1 then
          some (.app (.rawPointer true) resolved)
        else
          none

def resolveTypes (program : Program) (generics : List String) :
    List TypeName → Option (List Ty)
  | [] => some []
  | x :: xs =>
    match resolveType program generics x, resolveTypes program generics xs with
    | some ty, some tys => some (ty :: tys)
    | _, _ => none

end

/-- What the checker can read an owned name as. -/
inductive ReadAs (program : Program) (generics : List String) (name : String)
    (arguments : List Ty) : Ty → Prop
  | function (h : name = "fn") (hsome : arguments ≠ []) :
      ReadAs program generics name arguments (.app .function arguments)
  | cFunction (h : name = "CFunction") {signature : List Ty}
      (hargs : arguments = [.app .function signature]) :
      ReadAs program generics name arguments (.app .cFunction signature)
  | builtin {con : Con} (h : builtinTypes.lookup name = some (con, arguments.length)) :
      ReadAs program generics name arguments (.app con arguments)
  | error {con : Con} (h : errorTypes.lookup name = some con) (hnone : arguments = []) :
      ReadAs program generics name arguments (.app con [])
  | generic (h : name ∈ generics) (hnone : arguments = []) :
      ReadAs program generics name arguments (.generic name)
  | declared {con : Con} (h : program.nominal name = some (con, arguments.length)) :
      ReadAs program generics name arguments (.app con arguments)

theorem ReadAs.of_resolveHead {program : Program} {generics : List String} {name : String}
    {arguments : List Ty} {ty : Ty}
    (h : resolveHead program generics (.named name) arguments = some ty) :
    ReadAs program generics name arguments ty := by
  have hdecl : ∀ {ty}, resolveDeclared program generics name arguments = some ty →
      ReadAs program generics name arguments ty := by
    intro ty h
    rw [resolveDeclared] at h
    split_ifs at h with hgen
    · cases h
      exact .generic hgen.2 hgen.1
    · split at h
      · rename_i con arity hnom
        obtain ⟨hlen, hty⟩ := Option.ite_none_right_eq_some.mp h
        cases hty
        exact .declared (hlen ▸ hnom)
      · cases h
  unfold resolveHead at h
  dsimp only at h
  by_cases hfn : name = "fn" ∧ arguments ≠ []
  · rw [if_pos hfn] at h
    cases h
    exact .function hfn.1 hfn.2
  rw [if_neg hfn] at h
  by_cases hcFunction : name = "CFunction" ∧ arguments.length = 1
  · rw [if_pos hcFunction] at h
    split at h
    · cases h
      exact .cFunction hcFunction.1 rfl
    · cases h
  rw [if_neg hcFunction] at h
  split at h
  · rename_i con arity hbuiltin
    split_ifs at h with hlen
    · cases h
      exact .builtin (hlen ▸ hbuiltin)
    · exact hdecl h
  · rename_i con _ herror
    split_ifs at h with hnone
    · cases h
      exact .error herror hnone
    · exact hdecl h
  · exact hdecl h

/-! ## The reading of HIR lowering -/

/-- The first `arity` arguments, `Unknown` where the source has fewer. -/
def takeArguments (arity : Nat) (arguments : List Ty) : List Ty :=
  (List.range arity).map fun i => arguments[i]?.getD (.app .unknown [])

/-- The width in a name such as `i32`: the letter followed by a `u16`. -/
def integerWidth (letter : Char) (name : String) : Option Nat :=
  match name.toList with
  | first :: digits =>
    if first = letter ∧ digits ≠ [] ∧ digits.all Char.isDigit then
      let width := digits.foldl (fun n digit => 10 * n + (digit.toNat - 48)) 0
      if width < 2 ^ 16 then some width else none
    else
      none
  | [] => none

/-- The declared names of `lower_type`; any unknown name is a generic one. -/
def lowerDeclared (program : Program) (name : String) (arguments : List Ty) : Ty :=
  match program.structId name, program.enumId name with
  | some id, _ => .app (.struct id) arguments
  | none, some id => .app (.enum id) arguments
  | none, none => .generic name

def lowerHead (program : Program) : TypeHead → List Ty → Ty
  | .array length, arguments => .app (.array length) (takeArguments 1 arguments)
  | .named name, arguments =>
    if name = "fn" ∧ arguments ≠ [] then
      .app .function arguments
    else if name = "CFunction" ∧ arguments.length = 1 then
      match arguments with
      | [.app .function signature] => .app .cFunction signature
      | _ => .app .unknown []
    else if name = "unit" then
      .app .unit []
    else if name = "float" then
      .app .float []
    else if name ∈ ["MemoryPtr", "MemoryMutPtr"] ∧ arguments.length ≠ 1 then
      lowerDeclared program name arguments
    else
      match builtinTypes.lookup name, errorTypes.lookup name with
      | some (con, arity), _ => .app con (takeArguments arity arguments)
      | none, some _ =>
        if name = "ConversionError" then lowerDeclared program name arguments
        else .generic name
      | none, none =>
        match integerWidth 'i' name, integerWidth 'u' name with
        | some width, _ => .app (.signed width) []
        | none, some width => .app (.unsigned width) []
        | none, none => lowerDeclared program name arguments

mutual

/-- `lower_type` of HIR lowering. -/
def lowerType (program : Program) : TypeName → Ty
  | .mk head arguments qualifier =>
    let lowered := lowerTypes program arguments
    let base := lowerHead program head lowered
    match qualifier with
    | .owned => base
    | .sharedReference => .app (.reference false) [base]
    | .mutableReference => .app (.reference true) [base]
    | .rawConstPointer =>
      .app (.rawPointer false)
        (if head = .named "ptr" then takeArguments 1 lowered else [base])
    | .rawMutPointer =>
      .app (.rawPointer true)
        (if head = .named "ptr" then takeArguments 1 lowered else [base])

def lowerTypes (program : Program) : List TypeName → List Ty
  | [] => []
  | x :: xs => lowerType program x :: lowerTypes program xs

end

end Disp.Dispatch

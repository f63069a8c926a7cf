import Mathlib.Algebra.Order.Ring.Int
import Mathlib.Data.List.Forall2
import Mathlib.Tactic.Linarith
import Mathlib.Tactic.Ring

/-!
# Checker types

The type terms of the type checker and the relations it decides on them: the
widening relation `types_compatible`, the one-sided matching
`infer_substitutions`, substitution, and the overlap test that rejects two
implementations of one trait.

A type is a generic name or a constructor applied to arguments.  The last
argument of a function type is its result; the payload of a constructor that is
not a type (a width, an array length, a mutability, a nominal identity) is part
of the constructor.
-/

namespace Disp.TypeChecker

/-- Type constructors, in the order of the checker's `Type` enumeration. -/
inductive Con
  | int
  | intLiteral (value : Nat)
  | negativeIntLiteral (value : Int)
  | uint
  | signed (width : Nat)
  | unsigned (width : Nat)
  | float
  | float32
  | floatLiteral
  | string
  | str
  | cString
  | cStr
  | memory
  | secretBytes
  | aeadEnvelope
  | ed25519SigningKey
  | path
  | url
  | json
  | ipAddress
  | socketAddress
  | tcpStream
  | tlsStream
  | httpRequest
  | httpResponse
  | tcpListener
  | udpSocket
  | udpDatagram
  | instant
  | duration
  | processCommand
  | childProcess
  | processOutput
  | database
  | dataStore
  | array (length : Nat)
  | slice
  | list
  | map
  | set
  | thread
  | future
  | task
  | mutex
  | mutexGuard
  | channel
  | atomicInt
  | char
  | bool
  | conversionError
  | ioError
  | networkError
  | httpError
  | dataError
  | cryptoError
  | unit
  | struct (id : Nat)
  | enum (id : Nat)
  | associated (name : String)
  | reference (mutable : Bool)
  | rawPointer (mutable : Bool)
  | memoryPointer (mutable : Bool)
  | option
  | result
  | function
  | cFunction
  | cRegistration
  | infer
  /-- HIR lowering's `Unknown`; the checker never builds it. -/
  | unknown
  deriving DecidableEq, Repr

inductive Ty
  | generic (name : String)
  | app (con : Con) (arguments : List Ty)
  deriving Repr

namespace Ty

/-! ## Decidable equality

`Ty` nests through `List`, so equality is decided by a Boolean test and its
correctness lemma. -/

mutual

def beq : Ty → Ty → Bool
  | .generic a, .generic b => a == b
  | .app c xs, .app d ys => c == d && beqAll xs ys
  | _, _ => false

def beqAll : List Ty → List Ty → Bool
  | [], [] => true
  | x :: xs, y :: ys => beq x y && beqAll xs ys
  | _, _ => false

end

mutual

theorem beq_iff (a b : Ty) : beq a b = true ↔ a = b := by
  match a, b with
  | .generic a, .generic b | .generic _, .app _ _ | .app _ _, .generic _ => simp [beq]
  | .app c xs, .app d ys => simp [beq, beqAll_iff xs ys]

theorem beqAll_iff (xs ys : List Ty) : beqAll xs ys = true ↔ xs = ys := by
  match xs, ys with
  | [], [] | [], _ :: _ | _ :: _, [] => simp [beqAll]
  | x :: xs, y :: ys => simp [beqAll, beq_iff x y, beqAll_iff xs ys]

end

instance : DecidableEq Ty := fun a b => decidable_of_iff _ (beq_iff a b)

abbrev int : Ty := .app .int []
abbrev uint : Ty := .app .uint []
abbrev bool : Ty := .app .bool []
abbrev signed (width : Nat) : Ty := .app (.signed width) []
abbrev unsigned (width : Nat) : Ty := .app (.unsigned width) []
abbrev intLiteral (value : Nat) : Ty := .app (.intLiteral value) []
abbrev negativeIntLiteral (value : Int) : Ty := .app (.negativeIntLiteral value) []

end Ty

/-! ## Integer ranges -/

def signedFits (value : Int) (width : Nat) : Bool :=
  width == 128 || (decide (-(2 ^ (width - 1)) ≤ value) && decide (value ≤ 2 ^ (width - 1) - 1))

def unsignedFits (value width : Nat) : Bool :=
  width == 128 || decide (value < 2 ^ width)

def Ty.isInteger : Ty → Bool
  | .app (.int) _ | .app (.intLiteral _) _ | .app (.negativeIntLiteral _) _
  | .app (.uint) _ | .app (.signed _) _ | .app (.unsigned _) _ => true
  | _ => false

def Ty.isNumeric : Ty → Bool
  | .app .float _ | .app .float32 _ | .app .floatLiteral _ => true
  | ty => ty.isInteger

/-- `materialize_literal`: a literal that fits `int` gets that type. -/
def materializeLiteral : Ty → Ty
  | .app (.intLiteral value) xs =>
    if value ≤ 2 ^ 63 - 1 then .int else .app (.intLiteral value) xs
  | .app (.negativeIntLiteral value) xs =>
    if -(2 ^ 63) ≤ value then .int else .app (.negativeIntLiteral value) xs
  | .app .floatLiteral _ => .app .float []
  | ty => ty

/-! ## Compatibility -/

/-- The arms of `types_compatible` that relate two constructors without arguments:
literals that fit, and widening between numeric types. -/
def scalarCompatible : Con → Con → Option Bool
  | .int, .intLiteral value => some (decide (value ≤ 2 ^ 63 - 1))
  | .int, .negativeIntLiteral value => some (decide (-(2 ^ 63) ≤ value))
  | .uint, .intLiteral value => some (decide (value ≤ 2 ^ 64 - 1))
  | .signed width, .intLiteral value =>
    some (decide (value ≤ 2 ^ 127 - 1) && signedFits value width)
  | .signed width, .negativeIntLiteral value => some (signedFits value width)
  | .unsigned width, .intLiteral value => some (unsignedFits value width)
  | .float, .floatLiteral | .float32, .floatLiteral => some true
  | .signed expected, .signed actual => some (decide (actual ≤ expected))
  | .unsigned expected, .unsigned actual => some (decide (actual ≤ expected))
  | .int, .signed actual => some (decide (actual ≤ 64))
  | .signed expected, .int => some (decide (128 ≤ expected))
  | .uint, .unsigned actual => some (decide (actual ≤ 64))
  | .unsigned expected, .uint => some (decide (128 ≤ expected))
  | .signed expected, .unsigned actual => some (decide (actual < expected))
  | .float, .float32 => some true
  | .str, .string => some true
  | _, _ => none

/-- Constructors whose arguments `types_compatible` compares one by one; a mutable
reference is accepted where a shared one is expected. -/
def Con.comparesArguments : Con → Con → Bool
  | .reference expected, .reference actual => !expected || actual
  | .rawPointer expected, .rawPointer actual => expected == actual
  | .memoryPointer expected, .memoryPointer actual => expected == actual
  | .struct a, .struct b | .enum a, .enum b | .array a, .array b => a == b
  | .option, .option | .slice, .slice | .list, .list | .channel, .channel
  | .map, .map | .set, .set | .future, .future | .task, .task | .result, .result
  | .function, .function | .cFunction, .cFunction => true
  | _, _ => false

mutual

/-- `types_compatible`: a value of type `actual` may stand where `expected` is. -/
def typesCompatible : Ty → Ty → Bool
  | .app c xs, .app d ys =>
    if c = .infer ∨ d = .infer then
      true
    else
      match scalarCompatible c d with
      | some accepted => accepted
      | none =>
        if c.comparesArguments d then
          xs.length == ys.length && allCompatible xs ys
        else
          c == d && decide (xs = ys)
  | .generic a, .generic b => a == b
  | .generic _, .app d _ => d == .infer
  | .app c _, .generic _ => c == .infer

def allCompatible : List Ty → List Ty → Bool
  | x :: xs, y :: ys => typesCompatible x y && allCompatible xs ys
  | _, _ => true

end

/-! ## Matching a template -/

abbrev Substitutions := List (String × Ty)

/-- Constructors whose arguments `infer_substitutions` descends into. -/
def Con.infersArguments : Con → Con → Bool
  | .thread, .thread | .mutex, .mutex | .mutexGuard, .mutexGuard => true
  | c, d => c.comparesArguments d

mutual

/-- `infer_substitutions`: the bindings that matching `template` against a type adds,
or `none` for two incompatible types inferred for one generic name.  A
clash of constructors is not an error here. -/
def inferSubstitutions : Ty → Ty → Substitutions → Option Substitutions
  | .generic name, actual, inferred =>
    match inferred.lookup name with
    | some previous => if typesCompatible previous actual then some inferred else none
    | none => some ((name, materializeLiteral actual) :: inferred)
  | .app c xs, .app d ys, inferred =>
    if c.infersArguments d && xs.length == ys.length then
      inferAll xs ys inferred
    else
      some inferred
  | .app _ _, .generic _, inferred => some inferred

def inferAll : List Ty → List Ty → Substitutions → Option Substitutions
  | x :: xs, y :: ys, inferred =>
    (inferSubstitutions x y inferred).bind (inferAll xs ys)
  | _, _, inferred => some inferred

end

mutual

def substitute (substitutions : Substitutions) : Ty → Ty
  | .generic name => (substitutions.lookup name).getD (.generic name)
  | .app c xs => .app c (substituteAll substitutions xs)

def substituteAll (substitutions : Substitutions) : List Ty → List Ty
  | [] => []
  | x :: xs => substitute substitutions x :: substituteAll substitutions xs

end

/-! ## Overlap of implementation targets -/

/-- Constructors whose arguments `types_overlap` descends into. -/
def Con.overlapsArguments : Con → Con → Bool
  | .struct a, .struct b | .enum a, .enum b | .array a, .array b => a == b
  | .option, .option | .slice, .slice | .list, .list | .thread, .thread
  | .future, .future | .task, .task | .mutex, .mutex | .mutexGuard, .mutexGuard
  | .channel, .channel | .map, .map | .set, .set | .result, .result => true
  | _, _ => false

mutual

def typesOverlap : Ty → Ty → Bool
  | .generic _, _ => true
  | .app _ _, .generic _ => true
  | .app c xs, .app d ys =>
    if c.overlapsArguments d then
      xs.length == ys.length && allOverlap xs ys
    else
      c == d && decide (xs = ys)

def allOverlap : List Ty → List Ty → Bool
  | x :: xs, y :: ys => typesOverlap x y && allOverlap xs ys
  | _, _ => true

end

end Disp.TypeChecker

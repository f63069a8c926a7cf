import Disp.Library.Decimal
import Disp.Library.Tokens
import Disp.TypeChecker.Types
import Mathlib.Data.String.Basic

/-!
# Symbols of function instances

`mangle` names an instance of a function by its number, its name and the codes of its type
arguments.  The codes show a type in prefix order, but not all of it: a function type is `fn`
whatever its signature is, and the code of a C function type does not say how many parameters
it has.  Two instances get one symbol exactly if they agree on what is shown.
-/

namespace Disp.Mono

open Disp.Library.Decimal Disp.Library.Tokens List
open Disp.TypeChecker

variable {n : Nat} {rest : List Char} {c : Con} {name : String} {arity : Con → Nat}

/-! ## HIR types -/

/-- The constructors of HIR types and the number of their arguments; a struct or enum has as many
as it declares, its `arity`. -/
def shapedCon (arity : Con → Nat) (c : Con) (arguments : Nat) : Bool :=
  match c with
  | .array _ | .slice | .list | .set | .thread | .future | .task | .mutex | .mutexGuard
  | .channel | .reference _ | .rawPointer _ | .memoryPointer _ | .option => arguments == 1
  | .map | .result => arguments == 2
  | .struct _ | .enum _ => arguments == arity c
  | .function | .cFunction => 1 ≤ arguments
  | .intLiteral _ | .negativeIntLiteral _ | .floatLiteral | .conversionError | .ioError
  | .networkError | .httpError | .dataError | .cryptoError | .associated _ | .infer => false
  | _ => arguments == 0

mutual

def hirShaped (arity : Con → Nat) : Ty → Bool
  | .generic _ => true
  | .app c xs => shapedCon arity c xs.length && allShaped arity xs

def allShaped (arity : Con → Nat) : List Ty → Bool
  | [] => true
  | x :: xs => hirShaped arity x && allShaped arity xs

end

/-! ## Codes -/

def isAlphanumeric (character : Char) : Bool :=
  character.isDigit || ('a' ≤ character ∧ character ≤ 'z') || ('A' ≤ character ∧ character ≤ 'Z')

def sanitize (name : String) : List Char :=
  name.toList.map fun character => if isAlphanumeric character then character else '_'

/-- How many arguments a constructor has, as far as its code depends on it. -/
inductive Shape
  | leaf
  | lone
  | branch
  deriving DecidableEq

def Shape.of (c : Con) (arguments : Nat) : Shape :=
  match c, arguments with
  | .function, _ => .leaf
  | _, 0 => .leaf
  | .cFunction, 1 => .lone
  | _, _ => .branch

/-- The code of a constructor, without its arguments.  A C function type without parameters has
an empty list of them before the separator. -/
def conCode : Con → Shape → List Char
  | .unit, _ => ['v']
  | .bool, _ => ['b']
  | .char, _ => ['c']
  | .string, _ => ['s']
  | .cString, _ => ['c', 's']
  | .cStr, _ => ['c', 'z']
  | .memory, _ => ['m', 'e', 'm']
  | .secretBytes, _ => ['s', 'e', 'c', 'r', 'e', 't']
  | .aeadEnvelope, _ => ['a', 'e', 'a', 'd']
  | .ed25519SigningKey, _ => ['e', 'd', 's', 'k']
  | .path, _ => ['p']
  | .processOutput, _ => ['p', 'o']
  | .processCommand, _ => ['p', 'c']
  | .childProcess, _ => ['c', 'p']
  | .database, _ => ['d', 'b']
  | .dataStore, _ => ['d', 'a', 't', 'a', '_', 's', 't', 'o', 'r', 'e']
  | .url, _ => ['u', 'r', 'l']
  | .json, _ => ['j', 's', 'o', 'n']
  | .ipAddress, _ => ['n', 'i']
  | .socketAddress, _ => ['n', 'a']
  | .tcpStream, _ => ['n', 't']
  | .tlsStream, _ => ['n', 'x']
  | .httpRequest, _ => ['n', 'q']
  | .httpResponse, _ => ['n', 'h']
  | .tcpListener, _ => ['n', 'l']
  | .udpSocket, _ => ['n', 'u']
  | .udpDatagram, _ => ['n', 'd']
  | .instant, _ => ['t', 'i']
  | .duration, _ => ['t', 'd']
  | .str, _ => ['z']
  | .array length, _ => 'A' :: (digits length ++ ['_'])
  | .slice, _ => ['L']
  | .list, _ => ['V']
  | .map, _ => ['M']
  | .set, _ => ['Q']
  | .thread, _ => ['T']
  | .future, _ => ['U']
  | .task, _ => ['K']
  | .mutex, _ => ['X']
  | .mutexGuard, _ => ['Y']
  | .channel, _ => ['H']
  | .atomicInt, _ => ['Z']
  | .int, _ => ['i', 'n']
  | .uint, _ => ['u', 'n']
  | .signed width, _ => 'i' :: digits width
  | .unsigned width, _ => 'u' :: digits width
  | .float, _ => ['f', '6', '4']
  | .float32, _ => ['f', '3', '2']
  | .reference mutable, _ => ['r', if mutable then 'm' else 's']
  | .rawPointer mutable, _ => ['p', if mutable then 'm' else 'c']
  | .memoryPointer mutable, _ => ['q', if mutable then 'm' else 'c']
  | .struct id, _ => 'S' :: digits id
  | .enum id, _ => 'E' :: digits id
  | .option, _ => ['O']
  | .result, _ => ['R']
  | .function, _ => ['f', 'n']
  | .cFunction, .lone => ['C', 'F', '_']
  | .cFunction, _ => ['C', 'F']
  | .cRegistration, _ => ['c', '_', 'r', 'e', 'g', 'i', 's', 't', 'r', 'a', 't', 'i', 'o', 'n']
  | _, _ => ['u', 'n', 'k', 'n', 'o', 'w', 'n']

mutual

def typeCode : Ty → List Char
  | .generic name => 'G' :: sanitize name
  | .app .function _ => ['f', 'n']
  | .app c xs => conCode c (.of c xs.length) ++ joinCodes xs

def joinCodes : List Ty → List Char
  | [] => []
  | [x] => typeCode x
  | x :: y :: ys => typeCode x ++ '_' :: joinCodes (y :: ys)

end

/-! ## Symbols -/

variable {shape : Shape}

structure Function where
  name : String
  /-- The link name of an external function. -/
  external : Option String

/-- An instance of a function at HIR types. -/
structure FunctionInstance (arity : Con → Nat) where
  function : Nat
  substitutions : List Ty
  shaped : allShaped arity substitutions = true

def argumentCodes : List Ty → List Char
  | [] => []
  | x :: xs => '_' :: (typeCode x ++ argumentCodes xs)

/-- `mangle`; `none` stands for the panic on a function number out of range. -/
def mangle (functions : List Function) (instance_ : FunctionInstance arity) : Option (List Char) :=
  (functions[instance_.function]?).map fun function =>
    match function.external with
    | some linkName => linkName.toList
    | none =>
      ['d', 'i', 's', 'p', '_', 'f'] ++ digits instance_.function ++
        '_' :: (sanitize function.name ++ argumentCodes instance_.substitutions)

/-! ## What a symbol shows -/

variable {a b : FunctionInstance arity}

inductive Token
  | generic (name : String)
  | con (c : Con) (shape : Shape)
  deriving DecidableEq

mutual

/-- The constructors of a type in prefix order; those of a function type's signature are not
shown. -/
def spineOf : Ty → List Token
  | .generic name => [.generic name]
  | .app .function _ => [.con .function .leaf]
  | .app c xs => .con c (.of c xs.length) :: spine xs

def spine : List Ty → List Token
  | [] => []
  | x :: xs => spineOf x ++ spine xs

end

/-- A generic name that `sanitize` leaves as it is. -/
def Token.Plain : Token → Prop
  | .generic name => ∀ character ∈ name.toList, isAlphanumeric character = true
  | .con _ _ => True

def Token.text : Token → List Char
  | .generic name => 'G' :: sanitize name
  | .con c shape => conCode c shape

def Token.leaf : Token → Bool
  | .generic _ => true
  | .con _ shape => shape = .leaf

/-- The shapes of the constructors of HIR types. -/
def conValid (c : Con) (shape : Shape) : Bool :=
  match c with
  | .struct _ | .enum _ => shape != .lone
  | .cFunction => shape != .leaf
  | .function => shape == .leaf
  | c =>
    match shape with
    | .leaf => shapedCon (fun _ => 0) c 0
    | .branch => shapedCon (fun _ => 0) c 1 || shapedCon (fun _ => 0) c 2
    | .lone => false

def Token.Valid : Token → Prop
  | .generic name => (Token.generic name).Plain
  | .con c shape => conValid c shape = true

def lexicon : Lexicon Token where
  text := Token.text
  leaf := Token.leaf
  valid := Token.Valid

/-! ## Reading a token -/

variable {token : Token}

def atEnd : List Char → Bool
  | [] => true
  | character :: _ => character = '_'

def endShape (rest : List Char) : Shape := if atEnd rest then .leaf else .branch

/-- The token at the start of a text. -/
def readToken : List Char → Option (Token × List Char)
  | 'v' :: rest => some (.con .unit .leaf, rest)
  | 'b' :: rest => some (.con .bool .leaf, rest)
  | 'c' :: rest =>
    match rest with
    | 's' :: rest => some (.con .cString .leaf, rest)
    | 'z' :: rest => some (.con .cStr .leaf, rest)
    | 'p' :: rest => some (.con .childProcess .leaf, rest)
    | '_' :: 'r' :: 'e' :: rest => some (.con .cRegistration .leaf, rest.drop 10)
    | rest => some (.con .char .leaf, rest)
  | 's' :: rest =>
    match rest with
    | 'e' :: rest => some (.con .secretBytes .leaf, rest.drop 4)
    | rest => some (.con .string .leaf, rest)
  | 'm' :: rest => some (.con .memory .leaf, rest.drop 2)
  | 'a' :: rest => some (.con .aeadEnvelope .leaf, rest.drop 3)
  | 'e' :: rest => some (.con .ed25519SigningKey .leaf, rest.drop 3)
  | 'p' :: rest =>
    match rest with
    | 'o' :: rest => some (.con .processOutput .leaf, rest)
    | 'm' :: rest => some (.con (.rawPointer true) .branch, rest)
    | 'c' :: rest =>
      if atEnd rest then some (.con .processCommand .leaf, rest)
      else some (.con (.rawPointer false) .branch, rest)
    | rest => some (.con .path .leaf, rest)
  | 'd' :: rest =>
    match rest with
    | 'b' :: rest => some (.con .database .leaf, rest)
    | rest => some (.con .dataStore .leaf, rest.drop 9)
  | 'u' :: rest =>
    match rest with
    | 'r' :: rest => some (.con .url .leaf, rest.drop 1)
    | 'n' :: 'k' :: rest => some (.con .unknown .leaf, rest.drop 4)
    | 'n' :: rest => some (.con .uint .leaf, rest)
    | rest => some (.con (.unsigned (readNumber rest).1) .leaf, (readNumber rest).2)
  | 'j' :: rest => some (.con .json .leaf, rest.drop 3)
  | 'n' :: rest =>
    match rest with
    | 'i' :: rest => some (.con .ipAddress .leaf, rest)
    | 'a' :: rest => some (.con .socketAddress .leaf, rest)
    | 't' :: rest => some (.con .tcpStream .leaf, rest)
    | 'x' :: rest => some (.con .tlsStream .leaf, rest)
    | 'q' :: rest => some (.con .httpRequest .leaf, rest)
    | 'h' :: rest => some (.con .httpResponse .leaf, rest)
    | 'l' :: rest => some (.con .tcpListener .leaf, rest)
    | 'u' :: rest => some (.con .udpSocket .leaf, rest)
    | rest => some (.con .udpDatagram .leaf, rest.drop 1)
  | 't' :: rest =>
    match rest with
    | 'i' :: rest => some (.con .instant .leaf, rest)
    | rest => some (.con .duration .leaf, rest.drop 1)
  | 'z' :: rest => some (.con .str .leaf, rest)
  | 'A' :: rest =>
    some (.con (.array (readNumber rest).1) .branch, (readNumber rest).2.drop 1)
  | 'L' :: rest => some (.con .slice .branch, rest)
  | 'V' :: rest => some (.con .list .branch, rest)
  | 'M' :: rest => some (.con .map .branch, rest)
  | 'Q' :: rest => some (.con .set .branch, rest)
  | 'T' :: rest => some (.con .thread .branch, rest)
  | 'U' :: rest => some (.con .future .branch, rest)
  | 'K' :: rest => some (.con .task .branch, rest)
  | 'X' :: rest => some (.con .mutex .branch, rest)
  | 'Y' :: rest => some (.con .mutexGuard .branch, rest)
  | 'H' :: rest => some (.con .channel .branch, rest)
  | 'Z' :: rest => some (.con .atomicInt .leaf, rest)
  | 'i' :: rest =>
    match rest with
    | 'n' :: rest => some (.con .int .leaf, rest)
    | rest => some (.con (.signed (readNumber rest).1) .leaf, (readNumber rest).2)
  | 'f' :: rest =>
    match rest with
    | '6' :: rest => some (.con .float .leaf, rest.drop 1)
    | '3' :: rest => some (.con .float32 .leaf, rest.drop 1)
    | rest => some (.con .function .leaf, rest.drop 1)
  | 'r' :: rest =>
    match rest with
    | 'm' :: rest => some (.con (.reference true) .branch, rest)
    | rest => some (.con (.reference false) .branch, rest.drop 1)
  | 'q' :: rest =>
    match rest with
    | 'm' :: rest => some (.con (.memoryPointer true) .branch, rest)
    | rest => some (.con (.memoryPointer false) .branch, rest.drop 1)
  | 'S' :: rest =>
    some (.con (.struct (readNumber rest).1) (endShape (readNumber rest).2), (readNumber rest).2)
  | 'E' :: rest =>
    some (.con (.enum (readNumber rest).1) (endShape (readNumber rest).2), (readNumber rest).2)
  | 'O' :: rest => some (.con .option .branch, rest)
  | 'R' :: rest => some (.con .result .branch, rest)
  | 'C' :: 'F' :: rest =>
    match rest with
    | '_' :: rest => some (.con .cFunction .lone, rest)
    | rest => some (.con .cFunction .branch, rest)
  | 'G' :: rest =>
    some (.generic (String.ofList (rest.takeWhile isAlphanumeric)), rest.dropWhile isAlphanumeric)
  | _ => none

/-! ## The reader finds every token back -/

/-- A text that starts with a letter. -/
def StartsLetter (text : List Char) : Prop :=
  ∃ character rest, text = character :: rest ∧ character ≠ '_' ∧ character.isDigit = false

/-- A text that is empty or starts with a separator. -/
def AtEnd (text : List Char) : Prop := text = [] ∨ ∃ rest, text = '_' :: rest

theorem text_startsLetter (token : Token) (rest : List Char) :
    StartsLetter (token.text ++ rest) := by
  cases token with
  | generic name => exact ⟨'G', _, rfl, by decide, by decide⟩
  | con c shape =>
    cases c <;> cases shape <;> exact ⟨_, _, rfl, by decide, by decide⟩

theorem starts_startsLetter {text : List Char} (h : lexicon.Starts text) : StartsLetter text := by
  obtain ⟨token, rest, -, rfl⟩ := h
  exact text_startsLetter token rest

/-- No code starts like the end of the code of `CRegistration`. -/
theorem text_ne_re (token : Token) (rest rest' : List Char) :
    token.text ++ rest ≠ 'r' :: 'e' :: rest' := by
  cases token with
  | generic name => simp [Token.text]
  | con c shape =>
    cases c with
    | reference mutable => cases mutable <;> simp [Token.text, conCode]
    | _ => cases shape <;> simp [Token.text, conCode]

theorem AtEnd.not_digit (h : AtEnd rest) :
    ∀ character rest', rest = character :: rest' → character.isDigit = false := by
  rintro character rest' rfl
  obtain h | ⟨_, h⟩ := h
  · cases h
  · cases h
    decide

theorem StartsLetter.not_digit (h : StartsLetter rest) :
    ∀ character rest', rest = character :: rest' → character.isDigit = false := by
  rintro character rest' rfl
  obtain ⟨_, _, heq, -, hdigit⟩ := h
  cases heq
  exact hdigit

theorem AtEnd.atEnd {rest : List Char} (h : AtEnd rest) : atEnd rest = true := by
  obtain rfl | ⟨_, rfl⟩ := h <;> rfl

theorem StartsLetter.atEnd {rest : List Char} (h : StartsLetter rest) : atEnd rest = false := by
  obtain ⟨character, _, rfl, hne, -⟩ := h
  simp [Mono.atEnd, hne]

theorem follows_leaf (h : lexicon.Follows token rest) (hleaf : token.leaf = true) :
    rest = [] ∨ ∃ rest', rest = '_' :: rest' ∧ lexicon.Starts rest' := by
  unfold Lexicon.Follows at h
  rw [if_pos (by exact hleaf)] at h
  exact h

theorem follows_atEnd (h : lexicon.Follows token rest) (hleaf : token.leaf = true) :
    AtEnd rest := by
  obtain h | ⟨rest', h, -⟩ := follows_leaf h hleaf
  · exact .inl h
  · exact .inr ⟨rest', h⟩

theorem follows_startsLetter (h : lexicon.Follows token rest) (hleaf : token.leaf = false) :
    StartsLetter rest := by
  unfold Lexicon.Follows at h
  rw [if_neg (by change ¬token.leaf = true; simp [hleaf])] at h
  exact starts_startsLetter h

theorem endShape_eq (hlone : shape ≠ .lone) (h : lexicon.Follows (.con c shape) rest) :
    endShape rest = shape := by
  cases shape with
  | leaf => simp [endShape, (follows_atEnd h rfl).atEnd]
  | lone => exact absurd rfl hlone
  | branch => simp [endShape, (follows_startsLetter h rfl).atEnd]

theorem follows_not_digit (h : lexicon.Follows token rest) :
    ∀ character rest', rest = character :: rest' → character.isDigit = false := by
  cases hleaf : token.leaf with
  | true => exact (follows_atEnd h hleaf).not_digit
  | false => exact (follows_startsLetter h hleaf).not_digit

theorem readNumber_follows (h : lexicon.Follows token rest) :
    readNumber (digits n ++ rest) = (n, rest) :=
  readNumber_digits (follows_not_digit h)

theorem readToken_con (hvalid : conValid c shape = true)
    (hfollows : lexicon.Follows (.con c shape) rest) :
    readToken (conCode c shape ++ rest) = some (.con c shape, rest) := by
  cases c with
  | struct id | enum id =>
    have hnum := readNumber_follows (n := id) hfollows
    have hlone : shape ≠ .lone := by simpa [conValid] using hvalid
    simp [conCode, readToken, hnum, endShape_eq hlone hfollows]
  | array length =>
    obtain rfl : shape = .branch := by cases shape <;> simp [conValid, shapedCon] at hvalid ⊢
    have hnum : readNumber (digits length ++ '_' :: rest) = (length, '_' :: rest) :=
      readNumber_digits (AtEnd.not_digit (.inr ⟨rest, rfl⟩))
    simp [conCode, readToken, hnum]
  | signed width | unsigned width =>
    obtain rfl : shape = .leaf := by cases shape <;> simp [conValid, shapedCon] at hvalid ⊢
    have hnum := readNumber_follows (n := width) hfollows
    obtain ⟨character, rest', hhead, hdigit⟩ := digits_head width rest
    have hne : character ≠ 'n' ∧ character ≠ 'r' := by
      constructor <;> rintro rfl <;> cases hdigit
    simp only [conCode, cons_append]
    rw [hhead] at hnum ⊢
    simp [readToken, hne, hnum]
  | char =>
    obtain rfl : shape = .leaf := by cases shape <;> simp [conValid, shapedCon] at hvalid ⊢
    -- a separator after it is followed by a code, which does not start with `re`
    obtain rfl | ⟨rest', rfl, token, rest, -, rfl⟩ := follows_leaf hfollows rfl
    · rfl
    · change (match '_' :: (token.text ++ rest) with
        | 's' :: rest => some (Token.con .cString .leaf, rest)
        | 'z' :: rest => some (Token.con .cStr .leaf, rest)
        | 'p' :: rest => some (Token.con .childProcess .leaf, rest)
        | '_' :: 'r' :: 'e' :: rest => some (Token.con .cRegistration .leaf, rest.drop 10)
        | rest => some (Token.con .char .leaf, rest)) = _
      split
      all_goals first
        | rfl
        | (rename_i heq; cases heq)
        | (rename_i heq; exact absurd (List.cons.inj heq).2 (text_ne_re token rest _))
  | string | path | uint =>
    obtain rfl : shape = .leaf := by cases shape <;> simp [conValid, shapedCon] at hvalid ⊢
    obtain rfl | ⟨_, rfl⟩ := follows_atEnd hfollows rfl <;> rfl
  | processCommand =>
    obtain rfl : shape = .leaf := by cases shape <;> simp [conValid, shapedCon] at hvalid ⊢
    simp [conCode, readToken, (follows_atEnd hfollows rfl).atEnd]
  | reference mutable | memoryPointer mutable =>
    obtain rfl : shape = .branch := by cases shape <;> simp [conValid, shapedCon] at hvalid ⊢
    cases mutable <;> rfl
  | rawPointer mutable =>
    obtain rfl : shape = .branch := by cases shape <;> simp [conValid, shapedCon] at hvalid ⊢
    have hend := (follows_startsLetter hfollows rfl).atEnd
    cases mutable <;> simp [conCode, readToken, hend]
  | cFunction =>
    cases shape with
    | lone => rfl
    | branch =>
      obtain ⟨character, rest', rfl, hne, -⟩ := follows_startsLetter hfollows rfl
      simp [conCode, readToken, hne]
    | leaf => simp [conValid] at hvalid
  | _ =>
    cases shape <;> first
      | (simp [conValid, shapedCon] at hvalid; done)
      | rfl

theorem sanitize_plain (h : (Token.generic name).Plain) : sanitize name = name.toList := by
  conv_rhs => rw [← map_id name.toList]
  apply map_congr_left
  intro character hmem
  rw [if_pos (h character hmem)]
  rfl

theorem readToken_generic (hplain : (Token.generic name).Plain)
    (hfollows : lexicon.Follows (.generic name) rest) :
    readToken ('G' :: sanitize name ++ rest) = some (.generic name, rest) := by
  have hrest : rest.takeWhile isAlphanumeric = [] ∧ rest.dropWhile isAlphanumeric = rest := by
    obtain rfl | ⟨rest', rfl⟩ := follows_atEnd hfollows rfl
    · exact ⟨rfl, rfl⟩
    · exact ⟨rfl, rfl⟩
  change some (Token.generic (String.ofList ((sanitize name ++ rest).takeWhile isAlphanumeric)),
    (sanitize name ++ rest).dropWhile isAlphanumeric) = _
  rw [sanitize_plain hplain, takeWhile_append_of_pos hplain,
    dropWhile_append_of_pos hplain, hrest.1, hrest.2, append_nil, String.ofList_toList]

theorem readToken_text (hvalid : lexicon.valid token) (hfollows : lexicon.Follows token rest) :
    readToken (lexicon.text token ++ rest) = some (token, rest) := by
  cases token with
  | generic name => exact readToken_generic hvalid hfollows
  | con c shape => exact readToken_con hvalid hfollows

theorem text_ne_nil (token : Token) : lexicon.text token ≠ [] := by
  obtain ⟨_, _, h, -, -⟩ := text_startsLetter token []
  exact fun hnil => by rw [show token.text = [] from hnil] at h; cases h

/-! ## Codes show the spine -/

theorem conValid_of_shaped {arguments : Nat} (h : shapedCon arity c arguments = true) :
    conValid c (.of c arguments) = true := by
  cases c with
  | struct id | enum id => rcases arguments with _ | n <;> rfl
  | _ =>
    rcases arguments with _ | _ | _ | n <;>
      first | rfl | simp [shapedCon] at h

theorem spineOf_app (h : c ≠ .function) (xs : List Ty) :
    spineOf (.app c xs) = .con c (.of c xs.length) :: spine xs := by
  rw [spineOf]
  exact h

theorem typeCode_app (h : c ≠ .function) (xs : List Ty) :
    typeCode (.app c xs) = conCode c (.of c xs.length) ++ joinCodes xs := by
  rw [typeCode]
  exact h

theorem leaf_con_nil (c : Con) : (Token.con c (.of c 0)).leaf = true := by
  cases c <;> rfl

theorem leaf_con (h : c ≠ .function) (x : Ty) (xs : List Ty) :
    (Token.con c (.of c (x :: xs).length)).leaf = false := by
  cases xs <;> cases c <;> simp_all [Token.leaf, Shape.of]

mutual

theorem typeCode_eq_render (x : Ty) (hshaped : hirShaped arity x = true)
    (hplain : ∀ token ∈ spineOf x, token.Plain) :
    lexicon.Complete (spineOf x) ∧ spineOf x ≠ [] ∧ typeCode x = lexicon.render (spineOf x) := by
  match x with
  | .generic name =>
    simp only [spineOf] at hplain ⊢
    exact ⟨⟨hplain _ (mem_singleton_self _), rfl⟩, by simp, rfl⟩
  | .app c xs =>
    rw [hirShaped, Bool.and_eq_true] at hshaped
    by_cases hfn : c = .function
    · subst hfn
      simp only [spineOf]
      exact ⟨⟨rfl, rfl⟩, by simp, rfl⟩
    · have hvalid : lexicon.valid (.con c (.of c xs.length)) := conValid_of_shaped hshaped.1
      rw [spineOf_app hfn] at hplain ⊢
      rw [typeCode_app hfn, Lexicon.render_cons]
      obtain ⟨hdone, hne, hcode⟩ := joinCodes_eq_render xs hshaped.2 fun token hmem =>
        hplain token (mem_cons_of_mem _ hmem)
      cases xs with
      | nil => exact ⟨⟨hvalid, leaf_con_nil c⟩, by simp, rfl⟩
      | cons y ys =>
        obtain ⟨next, tokens, hspine⟩ := exists_cons_of_ne_nil (hne (by simp))
        have hleaf : lexicon.leaf (.con c (.of c (y :: ys).length)) = false :=
          leaf_con hfn y ys
        rw [hspine] at hdone hcode ⊢
        refine ⟨⟨hvalid, hdone⟩, by simp, ?_⟩
        simp only [Lexicon.after, hleaf, hcode]
        rfl

theorem joinCodes_eq_render (xs : List Ty) (hshaped : allShaped arity xs = true)
    (hplain : ∀ token ∈ spine xs, token.Plain) :
    lexicon.Complete (spine xs) ∧ (xs ≠ [] → spine xs ≠ []) ∧
      joinCodes xs = lexicon.render (spine xs) := by
  match xs with
  | [] => exact ⟨trivial, by simp, rfl⟩
  | [x] =>
    simp only [allShaped, Bool.and_true, spine, append_nil] at hshaped hplain ⊢
    obtain ⟨hdone, hne, hcode⟩ := typeCode_eq_render x hshaped hplain
    exact ⟨hdone, fun _ => hne, by simpa only [joinCodes] using hcode⟩
  | x :: y :: ys =>
    rw [allShaped, Bool.and_eq_true] at hshaped
    rw [spine] at hplain ⊢
    obtain ⟨hdone, hne, hcode⟩ := typeCode_eq_render x hshaped.1 fun token hmem =>
      hplain token (mem_append_left _ hmem)
    obtain ⟨hdone', hne', hcode'⟩ := joinCodes_eq_render (y :: ys) hshaped.2
      fun token hmem => hplain token (mem_append_right _ hmem)
    refine ⟨hdone.append hdone', fun _ => by simp [hne], ?_⟩
    rw [joinCodes, hcode, hcode', Lexicon.render_append hdone hne (hne' (by simp))]

end

theorem argumentCodes_eq (xs : List Ty) :
    argumentCodes xs = if xs = [] then [] else '_' :: joinCodes xs := by
  match xs with
  | [] => rfl
  | [x] => simp [argumentCodes, joinCodes]
  | x :: y :: ys =>
    rw [argumentCodes, argumentCodes_eq (y :: ys), if_neg (by simp), if_neg (by simp), joinCodes]

/-- The type arguments of an instance as far as its symbol shows them. -/
def FunctionInstance.Plain (instance_ : FunctionInstance arity) : Prop :=
  ∀ token ∈ spine instance_.substitutions, token.Plain

/-- The codes of two lists of type arguments are equal exactly if their spines are. -/
theorem argumentCodes_eq_iff (ha : a.Plain) (hb : b.Plain) :
    argumentCodes a.substitutions = argumentCodes b.substitutions ↔
      spine a.substitutions = spine b.substitutions := by
  obtain ⟨hdone, hne, hcode⟩ := joinCodes_eq_render _ a.shaped ha
  obtain ⟨hdone', hne', hcode'⟩ := joinCodes_eq_render _ b.shaped hb
  have hnil : spine [] = [] := rfl
  rw [argumentCodes_eq, argumentCodes_eq, hcode, hcode']
  by_cases ha' : a.substitutions = []
  · by_cases hb' : b.substitutions = []
    · simp [ha', hb']
    · simp [ha', hb', hnil, (hne' hb').symm]
  · by_cases hb' : b.substitutions = []
    · simp [ha', hb', hnil, hne ha']
    · rw [if_neg ha', if_neg hb']
      constructor
      · intro h
        exact Lexicon.render_injective (fun _ _ => readToken_text)
          (fun token _ => text_ne_nil token) hdone hdone' (List.cons.inj h).2
      · intro h
        rw [h]

theorem mangle_eq_iff {functions : List Function} {f g : Function}
    (hf : functions[a.function]? = some f) (hg : functions[b.function]? = some g)
    (hfExternal : f.external = none) (hgExternal : g.external = none) (ha : a.Plain)
    (hb : b.Plain) :
    mangle functions a = mangle functions b ↔
      a.function = b.function ∧ spine a.substitutions = spine b.substitutions := by
  rw [← argumentCodes_eq_iff ha hb]
  simp only [mangle, hf, hg, hfExternal, hgExternal, Option.map_some, Option.some.injEq,
    append_assoc, append_cancel_left_eq]
  constructor
  · intro h
    obtain ⟨hfn, hrest⟩ := digits_separated (by decide) h
    rw [hfn, hg] at hf
    cases hf
    exact ⟨hfn, append_cancel_left hrest⟩
  · rintro ⟨hfn, hcodes⟩
    rw [hfn, hg] at hf
    cases hf
    rw [hfn, hcodes]

/-! ## Types behind a spine -/

mutual

/-- The type without the signatures of the function types in it. -/
def erase : Ty → Ty
  | .generic name => .generic name
  | .app .function _ => .app .function []
  | .app c xs => .app c (eraseAll xs)

def eraseAll : List Ty → List Ty
  | [] => []
  | x :: xs => erase x :: eraseAll xs

end

mutual

def avoids (excluded : Con → Bool) : Ty → Bool
  | .generic _ => true
  | .app c xs => !excluded c && allAvoid excluded xs

def allAvoid (excluded : Con → Bool) : List Ty → Bool
  | [] => true
  | x :: xs => avoids excluded x && allAvoid excluded xs

end

def isCFunction (c : Con) : Bool := c matches .cFunction

def isFunction (c : Con) : Bool := c matches .function | .cFunction

theorem erase_app (h : c ≠ .function) (xs : List Ty) :
    erase (.app c xs) = .app c (eraseAll xs) := by
  rw [erase]
  exact h

theorem spineOf_ne_nil (x : Ty) : spineOf x ≠ [] := by
  match x with
  | .generic name => simp [spineOf]
  | .app c xs =>
    by_cases hfn : c = .function
    · subst hfn
      simp [spineOf]
    · simp [spineOf_app hfn]

/-- A constructor other than a function type has one number of arguments. -/
theorem arguments_eq {n m : Nat} (hfn : c ≠ .function) (hc : isCFunction c = false)
    (hn : shapedCon arity c n = true) (hm : shapedCon arity c m = true) : n = m := by
  cases c <;> simp_all [shapedCon, isCFunction]

mutual

/-- Without C function types the number of arguments follows from the constructor, so the spine
at the start of a sequence determines the type, but for signatures. -/
theorem erase_eq_of_spineOf (x y : Ty) (hx : hirShaped arity x = true)
    (hy : hirShaped arity y = true) (hcx : avoids isCFunction x = true)
    (hcy : avoids isCFunction y = true) {more more' : List Token}
    (h : spineOf x ++ more = spineOf y ++ more') : erase x = erase y ∧ more = more' := by
  match x, y with
  | .generic name, .generic name' =>
    have hcons := List.cons.inj h
    exact ⟨by rw [Token.generic.inj hcons.1], hcons.2⟩
  | .generic name, .app d ys | .app d ys, .generic name =>
    by_cases hfn : d = .function
    · subst hfn
      cases (List.cons.inj h).1
    · rw [spineOf_app hfn] at h
      cases (List.cons.inj h).1
  | .app c xs, .app d ys =>
    by_cases hfn : c = .function
    · subst hfn
      by_cases hgn : d = .function
      · subst hgn
        exact ⟨rfl, (List.cons.inj h).2⟩
      · rw [spineOf_app hgn] at h
        exact absurd (Token.con.inj (List.cons.inj h).1).1.symm hgn
    · by_cases hgn : d = .function
      · subst hgn
        rw [spineOf_app hfn] at h
        exact absurd (Token.con.inj (List.cons.inj h).1).1 hfn
      · rw [spineOf_app hfn, spineOf_app hgn] at h
        obtain ⟨htoken, hrest⟩ := List.cons.inj h
        obtain ⟨rfl, -⟩ := Token.con.inj htoken
        simp only [hirShaped, avoids, Bool.and_eq_true, Bool.not_eq_true'] at hx hy hcx hcy
        have hlength := arguments_eq hfn hcx.1 hx.1 hy.1
        have hbelow := eraseAll_eq_of_spine xs ys hlength hx.2 hy.2 hcx.2 hcy.2 hrest
        exact ⟨by rw [erase_app hfn, erase_app hfn, hbelow.1], hbelow.2⟩

theorem eraseAll_eq_of_spine (xs ys : List Ty) (hlength : xs.length = ys.length)
    (hx : allShaped arity xs = true) (hy : allShaped arity ys = true)
    (hcx : allAvoid isCFunction xs = true) (hcy : allAvoid isCFunction ys = true)
    {more more' : List Token} (h : spine xs ++ more = spine ys ++ more') :
    eraseAll xs = eraseAll ys ∧ more = more' := by
  match xs, ys with
  | [], [] => exact ⟨rfl, h⟩
  | x :: xs, y :: ys =>
    simp only [allShaped, allAvoid, Bool.and_eq_true] at hx hy hcx hcy
    simp only [spine, append_assoc] at h
    obtain ⟨hhead, hrest⟩ := erase_eq_of_spineOf x y hx.1 hy.1 hcx.1 hcy.1 h
    have htail := eraseAll_eq_of_spine xs ys (Nat.succ.inj hlength) hx.2 hy.2 hcx.2 hcy.2 hrest
    exact ⟨by rw [eraseAll, eraseAll, hhead, htail.1], htail.2⟩

end

mutual

theorem spineOf_erase (x : Ty) : spineOf (erase x) = spineOf x := by
  match x with
  | .generic name => rfl
  | .app c xs =>
    by_cases hfn : c = .function
    · subst hfn
      simp only [erase, spineOf]
    · rw [erase_app hfn, spineOf_app hfn, spineOf_app hfn, spine_eraseAll xs, length_eraseAll xs]

theorem spine_eraseAll (xs : List Ty) : spine (eraseAll xs) = spine xs := by
  match xs with
  | [] => rfl
  | x :: xs => rw [eraseAll, spine, spine, spineOf_erase x, spine_eraseAll xs]

theorem length_eraseAll (xs : List Ty) : (eraseAll xs).length = xs.length := by
  match xs with
  | [] => rfl
  | x :: xs => rw [eraseAll, length_cons, length_cons, length_eraseAll xs]

end

/-- The spines of two lists of type arguments without C function types are equal exactly if the
lists are, but for the signatures of function types. -/
theorem spine_eq_iff {xs ys : List Ty} (hx : allShaped arity xs = true)
    (hy : allShaped arity ys = true) (hcx : allAvoid isCFunction xs = true)
    (hcy : allAvoid isCFunction ys = true) : spine xs = spine ys ↔ eraseAll xs = eraseAll ys := by
  constructor
  · intro h
    induction xs generalizing ys with
    | nil =>
      cases ys with
      | nil => rfl
      | cons y ys => simp [spine, spineOf_ne_nil] at h
    | cons x xs ih =>
      cases ys with
      | nil => simp [spine, spineOf_ne_nil] at h
      | cons y ys =>
        simp only [allShaped, allAvoid, Bool.and_eq_true] at hx hy hcx hcy
        obtain ⟨hhead, hrest⟩ := erase_eq_of_spineOf x y hx.1 hy.1 hcx.1 hcy.1 h
        rw [eraseAll, eraseAll, hhead, ih hx.2 hy.2 hcx.2 hcy.2 hrest]
  · intro h
    rw [← spine_eraseAll xs, h, spine_eraseAll]

mutual

theorem erase_of_avoids (x : Ty) (h : avoids isFunction x = true) : erase x = x := by
  match x with
  | .generic name => rfl
  | .app c xs =>
    simp only [avoids, Bool.and_eq_true, Bool.not_eq_true'] at h
    have hfn : c ≠ .function := by
      rintro rfl
      cases h.1
    rw [erase_app hfn, eraseAll_of_avoids xs h.2]

theorem eraseAll_of_avoids (xs : List Ty) (h : allAvoid isFunction xs = true) :
    eraseAll xs = xs := by
  match xs with
  | [] => rfl
  | x :: xs =>
    simp only [allAvoid, Bool.and_eq_true] at h
    rw [eraseAll, erase_of_avoids x h.1, eraseAll_of_avoids xs h.2]

end

mutual

theorem avoids_mono {p q : Con → Bool} (hpq : ∀ c, p c = true → q c = true) (x : Ty)
    (h : avoids q x = true) : avoids p x = true := by
  match x with
  | .generic name => rfl
  | .app c xs =>
    simp only [avoids, Bool.and_eq_true, Bool.not_eq_true'] at h ⊢
    refine ⟨Bool.eq_false_iff.mpr fun hp => ?_, allAvoid_mono hpq xs h.2⟩
    rw [hpq c hp] at h
    cases h.1

theorem allAvoid_mono {p q : Con → Bool} (hpq : ∀ c, p c = true → q c = true) (xs : List Ty)
    (h : allAvoid q xs = true) : allAvoid p xs = true := by
  match xs with
  | [] => rfl
  | x :: xs =>
    simp only [allAvoid, Bool.and_eq_true] at h ⊢
    exact ⟨avoids_mono hpq x h.1, allAvoid_mono hpq xs h.2⟩

end

/-- Instances at types without function and C function types have symbols of their own. -/
theorem mangle_injective_of_fixed {functions : List Function} {f g : Function}
    (hf : functions[a.function]? = some f) (hg : functions[b.function]? = some g)
    (hfExternal : f.external = none) (hgExternal : g.external = none) (ha : a.Plain)
    (hb : b.Plain) (hfa : allAvoid isFunction a.substitutions = true)
    (hfb : allAvoid isFunction b.substitutions = true)
    (h : mangle functions a = mangle functions b) : a = b := by
  obtain ⟨hfunction, hspine⟩ := (mangle_eq_iff hf hg hfExternal hgExternal ha hb).mp h
  have hmono : ∀ c, isCFunction c = true → isFunction c = true := by
    intro c hc
    cases c <;> first | rfl | cases hc
  rw [spine_eq_iff a.shaped b.shaped (allAvoid_mono hmono _ hfa) (allAvoid_mono hmono _ hfb),
    eraseAll_of_avoids _ hfa, eraseAll_of_avoids _ hfb] at hspine
  cases a
  cases b
  simp_all

/-- Two instances of functions that are not external, at types without C function types, get
different symbols exactly if they are instances of different functions or their type arguments
differ in more than the signatures of function types. -/
theorem mangle_ne_iff {functions : List Function} {a b : FunctionInstance arity} {f g : Function}
    (hf : functions[a.function]? = some f) (hg : functions[b.function]? = some g)
    (hfExternal : f.external = none) (hgExternal : g.external = none) (ha : a.Plain)
    (hb : b.Plain) (hca : allAvoid isCFunction a.substitutions = true)
    (hcb : allAvoid isCFunction b.substitutions = true) :
    mangle functions a ≠ mangle functions b ↔
      a.function ≠ b.function ∨ eraseAll a.substitutions ≠ eraseAll b.substitutions := by
  rw [ne_eq, mangle_eq_iff hf hg hfExternal hgExternal ha hb, not_and_or,
    spine_eq_iff a.shaped b.shaped hca hcb]

/-! ## Instances on both sides -/

def applyProgram : List Function := [{ name := "apply", external := none }]

def applyAt (ty : Ty) (h : allShaped (fun _ => 1) [ty] = true) : FunctionInstance fun _ => 1 :=
  ⟨0, [ty], h⟩

/-- `Box<List<int>>` and `Box<Option<int>>`, for a struct of one parameter. -/
theorem list_and_option_symbols_differ :
    mangle applyProgram (applyAt (.app (.struct 7) [.app .list [.int]]) rfl) ≠
      mangle applyProgram (applyAt (.app (.struct 7) [.app .option [.int]]) rfl) :=
  (mangle_ne_iff rfl rfl rfl rfl
    (by simp [FunctionInstance.Plain, applyAt, spine, spineOf, Token.Plain])
    (by simp [FunctionInstance.Plain, applyAt, spine, spineOf, Token.Plain]) rfl rfl).mpr
    (.inr (by simp [applyAt, eraseAll, erase]))

/-- The types `fn(int) -> int` and `fn(bool) -> bool`, and two C function types that take a
callback and differ in where its parameters end. -/
theorem function_types_share_symbols :
    (applyAt (.app .function [.int, .int]) rfl ≠ applyAt (.app .function [.bool, .bool]) rfl ∧
      mangle applyProgram (applyAt (.app .function [.int, .int]) rfl) =
        mangle applyProgram (applyAt (.app .function [.bool, .bool]) rfl)) ∧
    (applyAt (.app .cFunction [.app .cFunction [.int, .int], .int, .int]) rfl ≠
        applyAt (.app .cFunction [.app .cFunction [.int, .int, .int], .int]) rfl ∧
      mangle applyProgram
          (applyAt (.app .cFunction [.app .cFunction [.int, .int], .int, .int]) rfl) =
        mangle applyProgram
          (applyAt (.app .cFunction [.app .cFunction [.int, .int, .int], .int]) rfl)) := by
  refine ⟨⟨?_, rfl⟩, ⟨?_, rfl⟩⟩
  all_goals
    intro h
    cases h

end Disp.Mono

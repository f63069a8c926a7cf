import Disp.Library.Text

/-!
# The lexer

`Lexer::tokenize` over the characters that are left.  A reader takes these characters and
returns what it read with the characters after it; the position of the lexer is the position
after the characters it has consumed.
-/

namespace Disp.Surface

open Disp.Library.Text

/-! ## Positions and diagnostics -/

structure Position where
  line : Nat
  column : Nat
  deriving DecidableEq

def Position.after (position : Position) (c : Char) : Position :=
  if c = '\n' then ⟨position.line + 1, 1⟩ else ⟨position.line, position.column + 1⟩

def Position.over (position : Position) (text : List Char) : Position :=
  text.foldl Position.after position

structure Span where
  start : Position
  stop : Position
  deriving DecidableEq

inductive DiagnosticKind
  | lex
  | parse
  deriving DecidableEq

structure Diagnostic where
  kind : DiagnosticKind
  message : String
  span : Span
  help : Option String
  deriving DecidableEq

/-! ## Tokens -/

inductive Keyword
  | kwLet | kwVar | kwConst | kwFn | kwReturn | kwIf | kwElse | kwMatch | kwFor | kwIn
  | kwWhile | kwLoop | kwBreak | kwContinue | kwStruct | kwEnum | kwTrait | kwImpl | kwType
  | kwModule | kwUse | kwAs | kwPub | kwAsync | kwAwait | kwSpawn | kwParallel | kwMove
  | kwMut | kwUnsafe | kwExtern | kwExport | kwData | kwTransaction | kwPage | kwComponent
  | kwStyle | kwState | kwRoute | kwComptime | kwTrue | kwFalse
  deriving DecidableEq

inductive Symbol
  | plus | minus | star | slash | percent | equal | equalEqual | bang | bangEqual | less
  | lessEqual | greater | greaterEqual | and | andAnd | or | orOr | caret | tilde | plusEqual
  | minusEqual | starEqual | slashEqual | shiftLeft | shiftRight | arrow | fatArrow | question
  | leftParen | rightParen | leftBrace | rightBrace | leftBracket | rightBracket | comma | dot
  | colon | semicolon | range | rangeInclusive
  deriving DecidableEq

/-- `TokenKind`, over the type of the floating-point values. -/
inductive TokenKind (φ : Type)
  | keyword (word : Keyword)
  | identifier (value : List Char)
  | integer (value : Nat)
  | float (value : φ)
  | string (value : List Char)
  | character (value : Char)
  | symbol (value : Symbol)
  | eof
  deriving DecidableEq

structure Token (φ : Type) where
  kind : TokenKind φ
  span : Span
  deriving DecidableEq

def keywords : List (List Char × Keyword) :=
  [("let".toList, .kwLet), ("var".toList, .kwVar), ("const".toList, .kwConst),
    ("fn".toList, .kwFn), ("return".toList, .kwReturn), ("if".toList, .kwIf),
    ("else".toList, .kwElse), ("match".toList, .kwMatch), ("for".toList, .kwFor),
    ("in".toList, .kwIn), ("while".toList, .kwWhile), ("loop".toList, .kwLoop),
    ("break".toList, .kwBreak), ("continue".toList, .kwContinue),
    ("struct".toList, .kwStruct), ("enum".toList, .kwEnum), ("trait".toList, .kwTrait),
    ("impl".toList, .kwImpl), ("type".toList, .kwType), ("module".toList, .kwModule),
    ("use".toList, .kwUse), ("as".toList, .kwAs), ("pub".toList, .kwPub),
    ("async".toList, .kwAsync), ("await".toList, .kwAwait), ("spawn".toList, .kwSpawn),
    ("parallel".toList, .kwParallel), ("move".toList, .kwMove), ("mut".toList, .kwMut),
    ("unsafe".toList, .kwUnsafe), ("extern".toList, .kwExtern),
    ("export".toList, .kwExport), ("data".toList, .kwData),
    ("transaction".toList, .kwTransaction), ("page".toList, .kwPage),
    ("component".toList, .kwComponent), ("style".toList, .kwStyle),
    ("state".toList, .kwState), ("route".toList, .kwRoute),
    ("comptime".toList, .kwComptime), ("true".toList, .kwTrue), ("false".toList, .kwFalse)]

/-- What the lexer takes from the Unicode tables and from `f64`.  No white space is part of an
identifier. -/
structure Lexicon (φ : Type) where
  isXidStart : Char → Bool
  isXidContinue : Char → Bool
  nfc : List Char → List Char
  parseFloat : List Char → Option φ
  xidContinue_space : ∀ c, isWhitespace c = true → isXidContinue c = false

/-! ## Readers -/

/-- Why a reader stopped, and the characters that were left then. -/
structure Failure where
  message : String
  help : Option String
  rest : List Char

abbrev Reader := StateT (List Char) (Except Failure)

/-- `char::is_ascii_digit`. -/
def isDigit (c : Char) : Bool := '0' ≤ c && c ≤ '9'

def unescape : Char → Option Char
  | 'n' => some '\n'
  | 'r' => some '\r'
  | 't' => some '\t'
  | '0' => some '\x00'
  | '\\' => some '\\'
  | '"' => some '"'
  | '\'' => some '\''
  | _ => none

def readEscaped (escaped : Char) (rest : List Char) : Except Failure Char :=
  match unescape escaped with
  | some value => .ok value
  | none => .error ⟨s!"unknown escape sequence `\\{escaped}`", none, rest⟩

def readEscape : Reader Char
  | [] => .error ⟨"incomplete escape sequence", none, []⟩
  | escaped :: rest => (readEscaped escaped rest).map (·, rest)

/-- `read_string`, after the opening quote. -/
def readString : Reader (List Char)
  | [] => .error ⟨"unterminated string literal at end of file", none, []⟩
  | c :: rest =>
      if c = '"' then .ok ([], rest)
      else if c = '\\' then
        match rest with
        | [] => .error ⟨"incomplete escape sequence", none, []⟩
        | escaped :: rest => do
            let value ← readEscaped escaped rest
            let (values, rest) ← readString rest
            .ok (value :: values, rest)
      else if c = '\n' then .error ⟨"unterminated string literal", none, rest⟩
      else do
        let (values, rest) ← readString rest
        .ok (c :: values, rest)

def readClosingQuote (value : Char) : Reader Char
  | '\'' :: rest => .ok (value, rest)
  | rest => .error ⟨"character literal must contain exactly one Unicode scalar value", none, rest⟩

/-- `read_character`, after the opening quote. -/
def readCharacter : Reader Char
  | [] => .error ⟨"unterminated character literal", none, []⟩
  | c :: rest =>
    if c = '\n' then .error ⟨"unterminated character literal", none, c :: rest⟩
    else if c = '\\' then (readEscape >>= readClosingQuote) rest
    else readClosingQuote c rest

def invalidNumber (value : List Char) (reason : String) (rest : List Char) : Failure :=
  let text := String.ofList value
  ⟨s!"invalid numeric literal `{text}`: {reason}", none, rest⟩

/-- `read_digit_run`: the digits and separators are appended to `value`. -/
def readDigitRun (value : List Char) (previousWasSeparator : Bool) : Reader (List Char)
  | [] => .ok (value, [])
  | c :: rest =>
    if isDigit c then readDigitRun (value ++ [c]) false rest
    else if c = '_' then
      if previousWasSeparator || !rest.head?.any isDigit then
        .error (invalidNumber (value ++ [c]) "numeric separators must appear between digits" rest)
      else readDigitRun (value ++ [c]) true rest
    else .ok (value, c :: rest)

/-- The fraction of a number, and whether there is one. -/
def readFraction (value : List Char) : Reader (Bool × List Char)
  | '.' :: first :: rest =>
    if isDigit first then
      ((true, ·) <$> readDigitRun (value ++ ['.', first]) false) rest
    else .ok ((false, value), '.' :: first :: rest)
  | rest => .ok ((false, value), rest)

def readExponentSign (value : List Char) : Reader (List Char)
  | '+' :: rest => .ok (value ++ ['+'], rest)
  | '-' :: rest => .ok (value ++ ['-'], rest)
  | rest => .ok (value, rest)

def readExponentDigits (value : List Char) : Reader (List Char)
  | [] => .error (invalidNumber value "exponent requires digits" [])
  | first :: rest =>
    if isDigit first then readDigitRun (value ++ [first]) false rest
    else .error (invalidNumber value "exponent requires digits" (first :: rest))

/-- The exponent of a number, and whether there is one. -/
def readExponent (value : List Char) : Reader (Bool × List Char)
  | [] => .ok ((false, value), [])
  | c :: rest =>
    if c = 'e' ∨ c = 'E' then
      ((true, ·) <$> (readExponentSign (value ++ [c]) >>= readExponentDigits)) rest
    else .ok ((false, value), c :: rest)

/-- `u128::MAX`. -/
def maxInteger : Nat := 0xFFFFFFFFFFFFFFFFFFFFFFFFFFFFFFFF

/-- `str::parse::<u128>` on digits. -/
def parseInteger (digits : List Char) : Option Nat :=
  let value := digits.foldl (fun value digit => 10 * value + (digit.toNat - '0'.toNat)) 0
  if value ≤ maxInteger then some value else none

section Tokens

variable {φ : Type} (lexicon : Lexicon φ)

def parseNumber (isFloat : Bool) (clean : List Char) : Option (TokenKind φ) :=
  if isFloat then (lexicon.parseFloat clean).map .float else (parseInteger clean).map .integer

def rangeReason (isFloat : Bool) : String :=
  if isFloat then "floating-point value is out of range"
  else "integer value is outside the `int` range"

def numberKind (isFloat : Bool) (value : List Char) : Reader (TokenKind φ) := fun rest =>
  match parseNumber lexicon isFloat (value.filter (· ≠ '_')) with
  | some kind => .ok (kind, rest)
  | none => .error (invalidNumber value (rangeReason isFloat) rest)

def readNumber (first : Char) : Reader (TokenKind φ) := do
  let value ← readDigitRun [first] false
  let (fraction, value) ← readFraction value
  let (exponent, value) ← readExponent value
  numberKind lexicon (fraction || exponent) value

def isIdentifierStart (c : Char) : Bool := c == '_' || lexicon.isXidStart c

def isIdentifierContinue (c : Char) : Bool := c == '_' || lexicon.isXidContinue c

def wordKind (value : List Char) : TokenKind φ :=
  match keywords.lookup value with
  | some word => .keyword word
  | none => .identifier value

def notNormalized (value normalized : List Char) (rest : List Char) : Failure :=
  let value := String.ofList value
  let normalized := String.ofList normalized
  ⟨s!"identifier `{value}` is not in Unicode NFC form",
    some s!"write the identifier as `{normalized}`", rest⟩

def readIdentifier (first : Char) : Reader (TokenKind φ) := fun text =>
  let value := first :: text.takeWhile (isIdentifierContinue lexicon)
  let rest := text.dropWhile (isIdentifierContinue lexicon)
  if lexicon.nfc value = value then .ok (wordKind value, rest)
  else .error (notNormalized value (lexicon.nfc value) rest)

abbrev SymbolReader := List Char → Symbol × List Char

def single (symbol : Symbol) : SymbolReader := (symbol, ·)

/-- What follows if `match_char` finds the expected character, and what follows if not. -/
def follow (expected : Char) (found other : SymbolReader) : SymbolReader
  | [] => other []
  | c :: rest => if c = expected then found rest else other (c :: rest)

def compound (next : Char) (combined alone : Symbol) : SymbolReader :=
  follow next (single combined) (single alone)

def symbolReader : Char → Option SymbolReader
  | '(' => some (single .leftParen)
  | ')' => some (single .rightParen)
  | '{' => some (single .leftBrace)
  | '}' => some (single .rightBrace)
  | '[' => some (single .leftBracket)
  | ']' => some (single .rightBracket)
  | ',' => some (single .comma)
  | ':' => some (single .colon)
  | ';' => some (single .semicolon)
  | '+' => some (compound '=' .plusEqual .plus)
  | '-' => some (follow '>' (single .arrow) (compound '=' .minusEqual .minus))
  | '*' => some (compound '=' .starEqual .star)
  | '/' => some (compound '=' .slashEqual .slash)
  | '%' => some (single .percent)
  | '=' => some (follow '>' (single .fatArrow) (compound '=' .equalEqual .equal))
  | '!' => some (compound '=' .bangEqual .bang)
  | '<' => some (follow '=' (single .lessEqual) (compound '<' .shiftLeft .less))
  | '>' => some (follow '=' (single .greaterEqual) (compound '>' .shiftRight .greater))
  | '&' => some (compound '&' .andAnd .and)
  | '|' => some (compound '|' .orOr .or)
  | '^' => some (single .caret)
  | '~' => some (single .tilde)
  | '?' => some (single .question)
  | '.' => some (follow '.' (compound '=' .rangeInclusive .range) (single .dot))
  | _ => none

/-- The token that starts with the character `c`. -/
def readToken (c : Char) : Reader (TokenKind φ) := fun rest =>
  match symbolReader c with
  | some read => .ok (.symbol (read rest).1, (read rest).2)
  | none =>
      if c = '"' then (TokenKind.string <$> readString) rest
      else if c = '\'' then (TokenKind.character <$> readCharacter) rest
      else if isDigit c then readNumber lexicon c rest
      else if isIdentifierStart lexicon c then readIdentifier lexicon c rest
      else .error ⟨s!"unexpected character `{c}`", none, rest⟩

end Tokens

end Disp.Surface

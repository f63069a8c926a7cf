import Disp.Http.Chunked
import Disp.Library.Text

/-!
# Reading a response

`read_http_response` over the pieces in which the bytes of the server arrive: header blocks
until one is final, then a body that ends after a length, with its last chunk or with the
connection.  No deadline expires.
-/

namespace Disp.Http

open Disp.Library.Codec Disp.Library.Fragments Disp.Library.Text

def httpHeaderLimit : Nat := 64 * 1024

def httpChunkedWireLimit : Nat := httpBodyLimit + 1024 * 1024

/-- The size of the buffer that `read` fills. -/
def readLimit : Nat := 16 * 1024

/-- `limits::HTTP_HEADERS`. -/
def httpHeaders : Nat := 100

abbrev Text := List Char

/-! ## Headers -/

structure RawHeader where
  name : Text
  value : Bytes
  deriving DecidableEq

/-- What the header parser fills in. -/
structure RawResponse where
  code : Option Nat
  version : Option Nat
  headers : List RawHeader
  deriving DecidableEq

/-- The header parser: from the size of its storage and the bytes to the number of bytes it
consumed and the response, or to nothing if the headers are incomplete. -/
abbrev HeaderParser := Nat → Bytes → Except String (Option (Nat × RawResponse))

structure Head where
  status : Nat
  headers : List (Text × Text)
  http11 : Bool
  deriving DecidableEq

def toAsciiLowercase (text : Text) : Text := text.map Char.toLower

def headerText (header : RawHeader) : Except HttpError (Text × Text) :=
  match fromUtf8 header.value with
  | none => .error (invalidData "HTTP response header is not valid UTF-8")
  | some value => .ok (toAsciiLowercase header.name, trim value)

def parseHttpHeaders (parser : HeaderParser) (bytes : Bytes) : Except HttpError (Head × Nat) :=
  match parser httpHeaders bytes with
  | .error error => .error (invalidData s!"invalid HTTP response: {error}")
  | .ok none => .error (unexpectedEof "incomplete HTTP response headers")
  | .ok (some (consumed, response)) =>
    match response.code with
    | none => .error (invalidData "HTTP response has no status code")
    | some status => do
        let headers ← response.headers.mapM headerText
        pure (⟨status, headers, response.version == some 1⟩, consumed)

def headerMark : Bytes := [13, 10, 13, 10]

theorem headerMark_ne_nil : headerMark ≠ [] := by decide

def isInterim (status : Nat) : Bool := decide (100 ≤ status ∧ status < 200 ∧ status ≠ 101)

/-- Read to the end of the final header block: the head, where the body starts, the bytes
received and the pieces to come. -/
def readHead (parser : HeaderParser) (wire : Bytes) (pieces : List Bytes) :
    Except HttpError (Head × Nat × Bytes × List Bytes) :=
  match _ : find headerMark wire with
  | some position =>
    let headerEnd := position + 4
    if httpHeaderLimit < headerEnd then
      .error (invalidData "HTTP response headers exceed the 64 KiB limit")
    else
      match parseHttpHeaders parser (wire.take headerEnd) with
      | .error error => .error error
      | .ok (head, consumed) =>
        if consumed ≠ headerEnd then
          .error (invalidData "ambiguous HTTP response headers")
        else if isInterim head.status then
          readHead parser (wire.drop headerEnd) pieces
        else
          .ok (head, headerEnd, wire, pieces)
  | none =>
    if httpHeaderLimit ≤ wire.length then
      .error (invalidData "HTTP response headers exceed the 64 KiB limit")
    else
      match pieces with
      | [] => .error (unexpectedEof "connection ended before HTTP response headers")
      | piece :: pieces => readHead parser (wire ++ piece) pieces
termination_by (pieces.length, wire.length)
decreasing_by
  · have hlength := find_length_le headerMark_ne_nil ‹_›
    rw [headerMark] at hlength
    simp only [List.length_cons, List.length_nil] at hlength
    apply Prod.Lex.right
    rw [List.length_drop]
    omega
  · exact Prod.Lex.left _ _ (Nat.lt_succ_self _)

/-! ## Body framing -/

/-- `str::parse::<usize>`. -/
def parseUsize (text : Text) : Option Nat :=
  let digits := match text with
    | '+' :: digits => digits
    | digits => digits
  if digits.isEmpty || !digits.all Char.isDigit then
    none
  else
    let value := digits.foldl (fun value digit => value * 10 + (digit.toNat - '0'.toNat)) 0
    if usizeSize ≤ value then none else some value

def headerValues (name : String) (headers : List (Text × Text)) : List Text :=
  (headers.filter fun header => header.1 == name.toList).map (·.2)

structure Framing where
  contentLength : Option Nat
  chunked : Bool
  deriving DecidableEq

def bodyFraming (headers : List (Text × Text)) : Except HttpError Framing :=
  match (headerValues "content-length" headers).mapM parseUsize with
  | none => .error (invalidData "invalid HTTP Content-Length")
  | some contentLengths =>
    if (contentLengths.zip contentLengths.tail).any fun pair => pair.1 != pair.2 then
      .error (invalidData "conflicting HTTP Content-Length headers")
    else
      let contentLength := contentLengths.head?
      let transferCodings := (headerValues "transfer-encoding" headers).flatMap fun value =>
        (value.splitOn ',').map trim
      if !transferCodings.isEmpty && contentLength.isSome then
        .error (invalidData "ambiguous HTTP body framing")
      else
        let chunked := transferCodings.map toAsciiLowercase == ["chunked".toList]
        if !transferCodings.isEmpty && !chunked then
          .error (invalidData "unsupported HTTP Transfer-Encoding")
        else
          .ok ⟨contentLength, chunked⟩

def isReusable (head : Head) : Bool :=
  head.http11 && !(headerValues "connection" head.headers).any fun value =>
    (value.splitOn ',').any fun token => toAsciiLowercase (trim token) == "close".toList

def hasNoBody (headRequest : Bool) (status : Nat) : Bool :=
  headRequest || status == 204 || status == 304 || decide (100 ≤ status ∧ status < 200)

/-! ## Bodies -/

/-- Receive until `length` bytes of the body are there. -/
def readSized (bodyStart length : Nat) : Bytes → List Bytes → Except HttpError Bytes
  | wire, [] =>
    if wire.length - bodyStart < length then
      .error (unexpectedEof "HTTP response body ended early")
    else
      .ok wire
  | wire, piece :: pieces =>
    if wire.length - bodyStart < length then
      readSized bodyStart length (wire ++ piece) pieces
    else
      .ok wire

/-- Receive until the chunked body is complete: the body, and whether nothing follows it. -/
def readChunked (bodyStart : Nat) (wire : Bytes) (pieces : List Bytes) :
    Except HttpError (Bytes × Bool) :=
  let encoded := wire.drop bodyStart
  if httpChunkedWireLimit < encoded.length then
    .error (invalidData "HTTP chunk framing exceeds its safety limit")
  else
    match decodeChunkedBody encoded with
    | .error error => .error error
    | .ok (some (body, consumed)) => .ok (body, encoded.length == consumed)
    | .ok none =>
      match pieces with
      | [] => .error (unexpectedEof "chunked HTTP response ended early")
      | piece :: pieces => readChunked bodyStart (wire ++ piece) pieces

/-- Receive until the connection ends. -/
def readToEnd (bodyStart : Nat) (wire : Bytes) (pieces : List Bytes) : Except HttpError Bytes :=
  if httpBodyLimit < wire.length - bodyStart then
    .error (invalidData "HTTP response body exceeds the 16 MiB limit")
  else
    match pieces with
    | [] => .ok (wire.drop bodyStart)
    | piece :: pieces => readToEnd bodyStart (wire ++ piece) pieces

structure HttpResponse where
  status : Nat
  headers : List (Text × Text)
  body : Bytes
  reusable : Bool
  deriving DecidableEq

/-- The body of a response and whether the connection can be used again. -/
def readBody (headRequest : Bool) (head : Head) (framing : Framing) (bodyStart : Nat)
    (wire : Bytes) (pieces : List Bytes) : Except HttpError (Bytes × Bool) :=
  let reusable := isReusable head
  if hasNoBody headRequest head.status then
    .ok ([], reusable)
  else
    match framing.contentLength with
    | some length =>
      if httpBodyLimit < length then
        .error (invalidData "HTTP response body exceeds the 16 MiB limit")
      else
        (readSized bodyStart length wire pieces).map fun wire =>
          (slice wire bodyStart length, reusable && wire.length == bodyStart + length)
    | none =>
      if framing.chunked then
        (readChunked bodyStart wire pieces).map fun (body, atEnd) => (body, reusable && atEnd)
      else
        (readToEnd bodyStart wire pieces).map fun body => (body, false)

def readHttpResponse (parser : HeaderParser) (headRequest : Bool) (pieces : List Bytes) :
    Except HttpError HttpResponse := do
  let (head, bodyStart, wire, pieces) ← readHead parser [] pieces
  let framing ← bodyFraming head.headers
  let (body, reusable) ← readBody headRequest head framing bodyStart wire pieces
  pure ⟨head.status, head.headers, body, reusable⟩

end Disp.Http

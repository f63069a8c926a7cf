import Disp.Store.Format

/-!
# The store's file format: decoding

The reader of a payload, of a chain of pages, and of the formats written by earlier
versions.
-/

namespace Disp.Store

open Library.Codec

/-! ## The payload -/

namespace Reader

def takeBytes (length : Nat) (context : String) : Reader Invalid Bytes :=
  take length ⟨s!"DISP Data snapshot is truncated in {context}"⟩

def u8 (context : String) : Reader Invalid UInt8 := do
  let bytes ← takeBytes 1 context
  return bytes.headD 0

def u32 (context : String) : Reader Invalid Nat := do
  let bytes ← takeBytes 4 context
  return ofLe bytes

def u64 (context : String) : Reader Invalid Nat := do
  let bytes ← takeBytes 8 context
  return ofLe bytes

def data (limit : Nat) (context : String) : Reader Invalid Bytes := do
  let length ← u32 context
  require (decide (length ≤ limit)) ⟨s!"{context} exceeds its storage limit"⟩
  takeBytes length context

def fromUtf8 (bytes : Bytes) (context : String) : Reader Invalid String :=
  match String.fromUTF8? ⟨bytes.toArray⟩ with
  | some text => pure text
  | none => fun _ => .error ⟨s!"{context} is not valid UTF-8"⟩

def text (limit : Nat) (context : String) : Reader Invalid String := do
  let bytes ← data limit context
  fromUtf8 bytes context

end Reader

def decodeField (allowedFlags : UInt8) (done : List Field) : Reader Invalid Field := do
  let name ← Reader.text maxNameBytes "field name"
  require (!(done.map Field.name).contains name)
    ⟨"DISP Data table contains a duplicate field"⟩
  let storage ← Reader.text maxTypeBytes "field storage type"
  let flags ← Reader.u8 "field flags"
  require (flags &&& ~~~allowedFlags == 0)
    ⟨"DISP Data field uses unknown required flags"⟩
  return {
    name, storage
    optional := flags &&& 0b01 != 0
    primary := flags &&& 0b10 != 0
    unique := flags &&& 0b100 != 0
    indexed := flags &&& 0b1000 != 0 }

def decodeConstraintField (names : List String) (done : List String) :
    Reader Invalid String := do
  let field ← Reader.text maxNameBytes "constraint field"
  require (names.contains field && !done.contains field)
    ⟨"DISP Data composite constraint references invalid fields"⟩
  return field

def decodeConstraint (names : List String) (done : List Constraint) :
    Reader Invalid Constraint := do
  let name ← Reader.text maxNameBytes "constraint name"
  require (!names.contains name && !(done.map Constraint.name).contains name)
    ⟨"DISP Data table contains a duplicate field or constraint name"⟩
  let flags ← Reader.u8 "constraint flags"
  require (flags &&& ~~~1 == 0)
    ⟨"DISP Data constraint uses unknown required flags"⟩
  let fieldCount ← Reader.u32 "constraint field count"
  require (decide (2 ≤ fieldCount) && decide (fieldCount ≤ names.length))
    ⟨"DISP Data composite constraint has an invalid field count"⟩
  let fields ← repeated (decodeConstraintField names) fieldCount []
  return { name, unique := flags &&& 1 != 0, fields }

def decodeConstraints (supportsConstraints : Bool) (fields : List Field) :
    Reader Invalid (List Constraint) := do
  let count ← if supportsConstraints then Reader.u32 "constraint count" else pure 0
  require (decide (count ≤ maxFields)) ⟨"DISP Data table exceeds 4096 constraints"⟩
  repeated (decodeConstraint (fields.map Field.name)) count []

def decodeRow (_ : List Bytes) : Reader Invalid Bytes :=
  Reader.data maxRowBytes "stored row"

def decodeTable (allowedFlags : UInt8) (supportsConstraints : Bool) (done : List Table) :
    Reader Invalid Table := do
  let name ← Reader.text maxNameBytes "table name"
  require (!(done.map Table.name).contains name)
    ⟨"DISP Data snapshot contains a duplicate table"⟩
  let fieldCount ← Reader.u32 "field count"
  require (fieldCount != 0 && decide (fieldCount ≤ maxFields))
    ⟨"DISP Data table must contain between 1 and 4096 fields"⟩
  let fields ← repeated (decodeField allowedFlags) fieldCount []
  require (primaryCount fields == 1)
    ⟨"DISP Data table must contain exactly one primary field"⟩
  let constraints ← decodeConstraints supportsConstraints fields
  let rowCount ← Reader.u64 "row count"
  require (decide (rowCount ≤ maxRows)) ⟨"DISP Data table exceeds 100000 rows"⟩
  let rows ← repeated decodeRow rowCount []
  return { name, fields, constraints, rows }

def decodeTables (allowedFlags : UInt8) (supportsConstraints : Bool) :
    Reader Invalid (List Table) := do
  let tableCount ← Reader.u32 "table count"
  require (decide (tableCount ≤ maxTables)) ⟨"DISP Data snapshot exceeds 4096 tables"⟩
  repeated (decodeTable allowedFlags supportsConstraints) tableCount []

def decodePayload (payload : Bytes) (allowedFlags : UInt8) (supportsConstraints : Bool) :
    Except Invalid Snapshot := do
  let (tables, rest) ← decodeTables allowedFlags supportsConstraints payload
  ensure rest.isEmpty "DISP Data snapshot contains trailing payload bytes"
  return { tables }

/-! ## Pages -/

def readU32 (bytes : Bytes) (start : Nat) : Nat := ofLe (slice bytes start 4)

def readU64 (bytes : Bytes) (start : Nat) : Nat := ofLe (slice bytes start 8)

def allZero (bytes : Bytes) : Bool := bytes.all (· == 0)

def decodeLegacy (bytes : Bytes) : Except Invalid Snapshot := do
  ensure (decide (legacyHeaderSize ≤ bytes.length)) "DISP Data snapshot header is truncated"
  ensure (readU32 bytes 12 == 0) "DISP Data snapshot uses unknown required flags"
  ensure (readU64 bytes 16 == bytes.length - legacyHeaderSize)
    "DISP Data snapshot length is inconsistent"
  let payload := bytes.drop legacyHeaderSize
  ensure ((fnv1a payload).toNat == readU64 bytes 24)
    "DISP Data snapshot integrity check failed"
  decodePayload payload 0b11 false

/-- One page of the chain, after the payload of the pages before it. -/
def decodePage (bytes : Bytes) (payloadLength pageCount : Nat) (payload : Bytes) (page : Nat) :
    Except Invalid Bytes := do
  let start := page * pageSize
  ensure (slice bytes start 1 == [1] && slice bytes (start + 1) 3 == [0, 0, 0])
    "DISP Data page has an invalid type or flags"
  ensure (readU32 bytes (start + 4) == page) "DISP Data page identity is inconsistent"
  let used := readU32 bytes (start + 8)
  ensure (used == min (payloadLength - payload.length) pagePayloadSize)
    "DISP Data page used length is inconsistent"
  let expectedNext := if page + 1 = pageCount then 0 else page + 1
  ensure (readU32 bytes (start + 12) == expectedNext && readU64 bytes (start + 24) == 0)
    "DISP Data page chain is inconsistent"
  let data := slice bytes (start + pageHeaderSize) used
  ensure ((fnv1a data).toNat == readU64 bytes (start + 16))
    "DISP Data page integrity check failed"
  ensure (allZero (slice bytes (start + pageHeaderSize + used)
      (pageSize - pageHeaderSize - used)))
    "DISP Data page contains non-zero unused bytes"
  return payload ++ data

def decodePages (bytes : Bytes) (allowedFlags : UInt8) (supportsConstraints : Bool) :
    Except Invalid Snapshot := do
  ensure (decide (pageSize ≤ bytes.length)) "DISP Data page header is truncated"
  ensure (readU32 bytes 12 == pageSize) "DISP Data snapshot uses an unsupported page size"
  ensure (readU64 bytes 48 == 0) "DISP Data snapshot uses unknown required flags"
  ensure ((fnv1a (slice bytes 0 56)).toNat == readU64 bytes 56)
    "DISP Data page header integrity check failed"
  ensure (allZero (slice bytes 64 (pageSize - 64)))
    "DISP Data page header contains unknown metadata"
  let payloadLength := readU64 bytes 24
  let pageCount := readU64 bytes 32
  ensure (decide (2 ≤ pageCount) && decide (pageCount ≤ maxPages) &&
      bytes.length == pageCount * pageSize)
    "DISP Data page count is inconsistent"
  ensure (decide (payloadLength ≤ (pageCount - 1) * pagePayloadSize))
    "DISP Data payload exceeds its page chain"
  let payload ← (List.range' 1 (pageCount - 1)).foldlM
    (decodePage bytes payloadLength pageCount) []
  ensure ((fnv1a payload).toNat == readU64 bytes 40)
    "DISP Data payload integrity check failed"
  decodePayload payload allowedFlags supportsConstraints

def decode (bytes : Bytes) : Except Invalid Snapshot := do
  ensure (decide (12 ≤ bytes.length)) "DISP Data snapshot header is truncated"
  ensure (decide (bytes.length ≤ maxFileBytes)) "DISP Data snapshot exceeds 64 MiB"
  ensure (slice bytes 0 8 == magic) "file is not a DISP Data snapshot"
  let found := readU32 bytes 8
  if found = legacyVersion then decodeLegacy bytes
  else if found = pageVersion then decodePages bytes 0b11 false
  else if found = uniqueVersion then decodePages bytes 0b111 false
  else if found = indexVersion then decodePages bytes 0b1111 false
  else if found = version then decodePages bytes 0b1111 true
  else .error ⟨s!"unsupported DISP Data snapshot version {found}"⟩

end Disp.Store

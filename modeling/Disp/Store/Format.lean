import Disp.Library.Codec
import Mathlib.Data.List.Sort

/-!
# The store's file format: encoding

The single-file store of a durable data model.  A snapshot is a list of tables; it is
written as one payload, cut into checksummed pages behind a header page.
-/

namespace Disp.Store

open Library.Codec

variable {condition : Bool} {message : String} {α : Type}

/-! ## Constants -/

/-- The bytes of `DISPDB\x1a\n`. -/
def magic : Bytes := [0x44, 0x49, 0x53, 0x50, 0x44, 0x42, 0x1a, 0x0a]

def legacyVersion : Nat := 1
def pageVersion : Nat := 2
def uniqueVersion : Nat := 3
def indexVersion : Nat := 4
def version : Nat := 5
def legacyHeaderSize : Nat := 32
def pageSize : Nat := 4096
def pageHeaderSize : Nat := 32
def pagePayloadSize : Nat := pageSize - pageHeaderSize
def maxFileBytes : Nat := 64 * 1024 * 1024
def maxPages : Nat := maxFileBytes / pageSize
def maxTables : Nat := 4096
def maxFields : Nat := 4096
def maxRows : Nat := 100000
def maxNameBytes : Nat := 1024
def maxTypeBytes : Nat := 128
def maxRowBytes : Nat := 16 * 1024 * 1024

/-! ## Snapshots -/

structure Field where
  name : String
  storage : String
  optional : Bool
  primary : Bool
  unique : Bool
  indexed : Bool
deriving DecidableEq, Repr

structure Constraint where
  name : String
  unique : Bool
  fields : List String
deriving DecidableEq, Repr

structure Table where
  name : String
  fields : List Field
  constraints : List Constraint
  rows : List Bytes
deriving DecidableEq, Repr

structure Snapshot where
  tables : List Table
deriving DecidableEq, Repr

def Snapshot.empty : Snapshot := ⟨[]⟩

/-- Damaged or refused data. -/
structure Invalid where
  message : String
deriving DecidableEq, Repr

def ensure (condition : Bool) (message : String) : Except Invalid Unit :=
  if condition then .ok () else .error ⟨message⟩

theorem ensure_eq_ok {done : Unit} : ensure condition message = .ok done ↔ condition = true := by
  cases condition <;> simp [ensure]

theorem ensure_bind_ok {next : Unit → Except Invalid α} {value : α}
    (h : (ensure condition message >>= next) = .ok value) :
    condition = true ∧ next () = .ok value := by
  obtain ⟨_, hcond, h⟩ := bind_eq_ok h
  exact ⟨ensure_eq_ok.mp hcond, h⟩

theorem ensure_pass (h : condition = true) (message : String) (next : Unit → Except Invalid α) :
    (ensure condition message >>= next) = next () := by
  rw [h]
  rfl

/-! ## Text and checksums -/

def utf8 (text : String) : Bytes := text.toByteArray.data.toList

def fnv1a (bytes : Bytes) : UInt64 :=
  bytes.foldl (fun hash byte => (hash ^^^ byte.toUInt64) * 0x100000001b3) 0xcbf29ce484222325

/-! ## The payload -/

def pushU32 (value : Nat) (context : String) : Except Invalid Bytes := do
  ensure (decide (value < 2 ^ 32)) s!"{context} is too large"
  return le 4 value

def pushU64 (value : Nat) (context : String) : Except Invalid Bytes := do
  ensure (decide (value < 2 ^ 64)) s!"{context} is too large"
  return le 8 value

def pushBytes (value : Bytes) (limit : Nat) (context : String) : Except Invalid Bytes := do
  ensure (decide (value.length ≤ limit)) s!"{context} exceeds its storage limit"
  let length ← pushU32 value.length context
  return length ++ value

def Field.flags (field : Field) : UInt8 :=
  field.optional.toUInt8 ||| (field.primary.toUInt8 <<< 1) |||
    (field.unique.toUInt8 <<< 2) ||| (field.indexed.toUInt8 <<< 3)

def encodeField (done : List Field) (field : Field) : Except Invalid Bytes := do
  ensure (!(done.map Field.name).contains field.name)
    "DISP Data table contains a duplicate field"
  let name ← pushBytes (utf8 field.name) maxNameBytes "field name"
  let storage ← pushBytes (utf8 field.storage) maxTypeBytes "field storage type"
  return name ++ (storage ++ [field.flags])

def primaryCount (fields : List Field) : Nat := fields.countP Field.primary

def encodeConstraintField (names : List String) (done : List String) (field : String) :
    Except Invalid Bytes := do
  ensure (names.contains field && !done.contains field)
    "DISP Data composite constraint references invalid fields"
  pushBytes (utf8 field) maxNameBytes "constraint field"

def encodeConstraint (names : List String) (done : List Constraint) (constraint : Constraint) :
    Except Invalid Bytes := do
  let name ← pushBytes (utf8 constraint.name) maxNameBytes "constraint name"
  ensure (!(done.map Constraint.name).contains constraint.name &&
      !names.contains constraint.name)
    "DISP Data table contains a duplicate field or constraint name"
  ensure (decide (2 ≤ constraint.fields.length) &&
      decide (constraint.fields.length ≤ names.length))
    "DISP Data composite constraint has an invalid field count"
  let count ← pushU32 constraint.fields.length "constraint field count"
  let fields ← encodeAll (encodeConstraintField names) [] constraint.fields
  return name ++ ([constraint.unique.toUInt8] ++ (count ++ fields))

/-- The constraint section of a table: absent from the formats before version 5. -/
def encodeConstraints (supportsConstraints : Bool) (table : Table) : Except Invalid Bytes :=
  if supportsConstraints then do
    let count ← pushU32 table.constraints.length "constraint count"
    let constraints ← encodeAll (encodeConstraint (table.fields.map Field.name)) []
      table.constraints
    return count ++ constraints
  else do
    ensure table.constraints.isEmpty
      "legacy DISP Data formats cannot encode composite constraints"
    return []

def encodeRow (_ : List Bytes) (row : Bytes) : Except Invalid Bytes :=
  pushBytes row maxRowBytes "stored row"

def encodeTable (supportsConstraints : Bool) (done : List Table) (table : Table) :
    Except Invalid Bytes := do
  ensure (!(done.map Table.name).contains table.name)
    "DISP Data snapshot contains a duplicate table"
  let name ← pushBytes (utf8 table.name) maxNameBytes "table name"
  ensure (!table.fields.isEmpty && decide (table.fields.length ≤ maxFields))
    "DISP Data table must contain between 1 and 4096 fields"
  let fieldCount ← pushU32 table.fields.length "field count"
  let fields ← encodeAll encodeField [] table.fields
  ensure (primaryCount table.fields == 1)
    "DISP Data table must contain exactly one primary field"
  ensure (decide (table.rows.length ≤ maxRows)) "DISP Data table exceeds 100000 rows"
  let constraints ← encodeConstraints supportsConstraints table
  let rowCount ← pushU64 table.rows.length "row count"
  let rows ← encodeAll encodeRow [] table.rows
  return name ++ (fieldCount ++ (fields ++ (constraints ++ (rowCount ++ rows))))

/-- The loop over the tables, with the payload written so far: its size is checked after
each table. -/
def encodeTables (supportsConstraints : Bool) :
    List Table → Bytes → List Table → Except Invalid Bytes
  | _, payload, [] => .ok payload
  | done, payload, table :: tables => do
      let bytes ← encodeTable supportsConstraints done table
      ensure (decide ((payload ++ bytes).length ≤ maxFileBytes - pageSize))
        "DISP Data snapshot exceeds 64 MiB"
      encodeTables supportsConstraints (done ++ [table]) (payload ++ bytes) tables

/-- Names are compared byte by byte. -/
def Table.NameLe (left right : Table) : Prop := utf8 left.name ≤ utf8 right.name

instance : DecidableRel Table.NameLe :=
  fun left right => inferInstanceAs (Decidable (utf8 left.name ≤ utf8 right.name))

def inNameOrder (tables : List Table) : List Table := tables.insertionSort Table.NameLe

def encodePayloadWithConstraints (snapshot : Snapshot) (supportsConstraints : Bool) :
    Except Invalid Bytes := do
  ensure (decide (snapshot.tables.length ≤ maxTables)) "DISP Data snapshot exceeds 4096 tables"
  let count ← pushU32 (inNameOrder snapshot.tables).length "table count"
  encodeTables supportsConstraints [] count (inNameOrder snapshot.tables)

/-! ## Pages -/

def zeros (length : Nat) : Bytes := List.replicate length 0

def headerFields (version : Nat) (generation : UInt64) (payload : Bytes) (pageCount : Nat) :
    Bytes :=
  magic ++ (le 4 version ++ (le 4 pageSize ++ (le 8 generation.toNat ++
    (le 8 payload.length ++ (le 8 pageCount ++ (le 8 (fnv1a payload).toNat ++ le 8 0))))))

def headerPage (version : Nat) (generation : UInt64) (payload : Bytes) (pageCount : Nat) :
    Bytes :=
  let fields := headerFields version generation payload pageCount
  fields ++ (le 8 (fnv1a fields).toNat ++ zeros (pageSize - 64))

/-- The data page that holds one part of the payload; pages are chained by number. -/
def dataPage (payload : Bytes) (dataPages page : Nat) : Bytes :=
  let data := slice payload (page * pagePayloadSize) pagePayloadSize
  let next := if page + 1 = dataPages then 0 else page + 2
  [1, 0, 0, 0] ++ (le 4 (page + 1) ++ (le 4 data.length ++ (le 4 next ++
    (le 8 (fnv1a data).toNat ++ (le 8 0 ++ (data ++ zeros (pagePayloadSize - data.length)))))))

def dataPageCount (payload : Bytes) : Nat :=
  max ((payload.length + (pagePayloadSize - 1)) / pagePayloadSize) 1

def encodePagesVersion (snapshot : Snapshot) (generation : UInt64) (version : Nat)
    (supportsConstraints : Bool) : Except Invalid Bytes := do
  let payload ← encodePayloadWithConstraints snapshot supportsConstraints
  let dataPages := dataPageCount payload
  ensure (decide (dataPages + 1 ≤ maxPages)) "DISP Data page count exceeds its storage limit"
  return headerPage version generation payload (dataPages + 1) ++
    (List.range dataPages).flatMap (dataPage payload dataPages)

def encodePages (snapshot : Snapshot) (generation : UInt64) : Except Invalid Bytes :=
  encodePagesVersion snapshot generation version true

end Disp.Store

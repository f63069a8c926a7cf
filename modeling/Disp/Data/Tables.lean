import Disp.Library.Postings
import Disp.Store.Format

/-!
# Native data tables

The tables of a running data store: rows in insertion order, one index per field and one
per composite constraint.  Rows are changed first and the indexes rebuilt afterwards, by a
routine that can fail; a durable store is written back after each change.  An operation
therefore returns the store together with its result, the store also after a failure.
-/

namespace Disp.Data

open Disp.Library.Codec Disp.Library.Postings
open Disp.Store (Field Snapshot)

/-- What the tables need to know of the interpreter's values: `Value::Struct { fields, .. }`,
`encode_json_value`, and the `==` of values, by which the zeros of either sign are equal. -/
structure RowCodec (V : Type) where
  fields : V → Option (String → Option V)
  encode : V → Except String String
  equal : V → V → Bool

/-- A composite constraint, over positions in the field list. -/
structure Constraint where
  name : String
  unique : Bool
  fields : List Nat
  deriving DecidableEq, Repr

structure Table (V : Type) where
  fields : List Field
  primary : Nat
  rows : List V
  indexes : List (Index String)
  constraints : List Constraint
  compositeIndexes : List (Index String)

structure NativeStore (V : Type) where
  tables : AList fun _ : String => Table V
  pending : AList fun _ : String => Disp.Store.Table
  path : Option String
  locked : Bool

def databaseRowLimit : Nat := 100000

section Tables

variable {V : Type} (codec : RowCodec V)

/-! ## Indexes -/

/-- Every stored row is a struct value. -/
def checkRow (row : V) : Except String Unit :=
  if (codec.fields row).isSome then
    .ok ()
  else
    .error "stored row does not match its DISP Data schema"

/-- The encoded value of one field; `missing` is the complaint about an absent one. -/
def fieldKey (values : String → Option V) (name missing : String) : Except String String :=
  match values name with
  | none => .error missing
  | some value => codec.encode value

def rowKey (key : (String → Option V) → Except String String) (row : V) : Except String String :=
  match codec.fields row with
  | none => .error "stored row does not match its DISP Data schema"
  | some values => key values

def fieldColumn (field : Field) : Column V String String where
  keyed := field.primary || field.unique || field.indexed
  unique := field.primary || field.unique
  key := rowKey codec fun values =>
    fieldKey codec values field.name s!"stored row is missing `{field.name}`"
  duplicate := s!"stored table contains a duplicate indexed value for `{field.name}`"

/-- The encoded values of the constrained fields, each behind its length in bytes. -/
def compositeKey (fields : List Field) (values : String → Option V) :
    List Nat → Except String String
  | [] => .ok ""
  | position :: rest => do
      let some field := fields[position]? | .error "index out of bounds"
      let encoded ← fieldKey codec values field.name s!"stored row is missing `{field.name}`"
      let others ← compositeKey fields values rest
      return s!"{encoded.utf8ByteSize}:" ++ encoded ++ others

def constraintColumn (fields : List Field) (constraint : Constraint) :
    Column V String String where
  keyed := true
  unique := constraint.unique
  key := rowKey codec fun values => compositeKey codec fields values constraint.fields
  duplicate := s!"stored table violates composite constraint `{constraint.name}`"

def nativeDataIndexes (fields : List Field) (rows : List V) :
    Except String (List (Index String)) :=
  build (checkRow codec) (fields.map (fieldColumn codec)) rows

def nativeDataCompositeIndexes (fields : List Field) (constraints : List Constraint)
    (rows : List V) : Except String (List (Index String)) :=
  build (checkRow codec) (constraints.map (constraintColumn codec fields)) rows

def rebuildIndexes (table : Table V) : Except String (Table V) := do
  let indexes ← nativeDataIndexes codec table.fields table.rows
  let compositeIndexes ←
    nativeDataCompositeIndexes codec table.fields table.constraints table.rows
  return { table with indexes, compositeIndexes }

/-! ## Changes to one table -/

def conflicts (existing : Option Nat) (index : Index String) (key : String) : Bool :=
  match (postings index key).head? with
  | none => false
  | some position => some position != existing

/-- A key of the new value that, where it has to be unique, no other row may have. -/
structure Demand where
  unique : Bool
  candidate : Except String String
  index : Index String
  duplicate : String

def checkDemands (existing : Option Nat) : List Demand → Except String Unit
  | [] => .ok ()
  | demand :: rest =>
    if demand.unique then do
      let candidate ← demand.candidate
      if conflicts existing demand.index candidate then
        .error demand.duplicate
      else
        checkDemands existing rest
    else
      checkDemands existing rest

/-- The unique fields of the new value, each against its own index. -/
def checkUnique (schema : String) (existing : Option Nat) (values : String → Option V)
    (columns : List (Field × Index String)) : Except String Unit :=
  checkDemands existing <| columns.map fun (field, index) =>
    ⟨field.unique, fieldKey codec values field.name s!"data value is missing `{field.name}`", index,
      s!"duplicate unique value for `{schema}.{field.name}`"⟩

def checkConstraints (schema : String) (fields : List Field) (existing : Option Nat)
    (values : String → Option V) (columns : List (Constraint × Index String)) :
    Except String Unit :=
  checkDemands existing <| columns.map fun (constraint, index) =>
    ⟨constraint.unique, compositeKey codec fields values constraint.fields, index,
      s!"duplicate value for composite constraint `{schema}.{constraint.name}`"⟩

/-- The row with the primary value of the new one. -/
def existingRow (table : Table V) (values : String → Option V) : Except String (Option Nat) := do
  let (some field, some index) := (table.fields[table.primary]?, table.indexes[table.primary]?)
    | .error "index out of bounds"
  let key ← fieldKey codec values field.name "data value is missing its primary field"
  return (postings index key).head?

/-- The checks of a write, made before anything is changed, and the rows it then sets. -/
def planWrite (schema : String) (value : V) (replace : Bool) (table : Table V) :
    Except String (List V) := do
  let some values := codec.fields value | .error "DISP Data write requires a schema value"
  let existing ← existingRow codec table values
  checkUnique codec schema existing values (table.fields.zip table.indexes)
  checkConstraints codec schema table.fields existing values
    (table.constraints.zip table.compositeIndexes)
  match existing with
  | some position =>
    if replace then
      .ok (table.rows.set position value)
    else
      .error s!"duplicate primary value for `{schema}`"
  | none =>
    if databaseRowLimit ≤ table.rows.length then
      .error "data table exceeds the 100000-row limit"
    else
      .ok (table.rows ++ [value])

def setRows (table : Table V) (rows : List V) : Except String Unit × Table V :=
  match rebuildIndexes codec { table with rows } with
  | .ok rebuilt => (.ok (), rebuilt)
  | .error error => (.error error, { table with rows })

/-! ## Changes to the store -/

def snapshotTable (name : String) (table : Table V) : Except String Disp.Store.Table := do
  let rows ← table.rows.mapM codec.encode
  return {
    name
    fields := table.fields
    constraints := table.constraints.map fun constraint =>
      ⟨constraint.name, constraint.unique,
        constraint.fields.map fun position => (table.fields[position]?).elim "" Field.name⟩
    rows := rows.map Disp.Store.utf8 }

def nativeDataSnapshot (store : NativeStore V) : Except String Snapshot := do
  let tables ← store.tables.entries.mapM fun entry => snapshotTable codec entry.1 entry.2
  return ⟨store.pending.entries.map Sigma.snd ++ tables⟩

/-- Write the store back; `commit` is what the file system answers this time. -/
def persistNativeData (commit : Snapshot → Except String Unit) (store : NativeStore V) :
    Except String Unit :=
  if store.path.isNone then
    .ok ()
  else if store.locked then
    nativeDataSnapshot codec store >>= commit
  else
    .error "persistent DISP Data store has no lock"

/-- `mutate_native_data`: the previous store is put back only when a durable one cannot be
written. -/
def mutateNativeData {α : Type} (commit : Snapshot → Except String Unit) (store : NativeStore V)
    (operation : NativeStore V → Except String α × NativeStore V) :
    Except String α × NativeStore V :=
  match operation store with
  | (.error error, changed) => (.error error, changed)
  | (.ok value, changed) =>
    match persistNativeData codec commit changed with
    | .ok () => (.ok value, changed)
    | .error error => (.error error, if store.path.isSome then store else changed)

/-- Change the rows of a registered table to those a plan gives. -/
def changeRows {α : Type} (schema : String) (plan : Table V → Except String (List V)) (done : α)
    (store : NativeStore V) : Except String α × NativeStore V :=
  match store.tables.lookup schema with
  | none => (.error "DISP Data schema was not registered", store)
  | some table =>
    match plan table with
    | .error error => (.error error, store)
    | .ok rows =>
      let (result, changed) := setRows codec table rows
      (result.map fun _ => done, { store with tables := store.tables.insert schema changed })

/-- An insert, or with `replace` an upsert; the answer is the number of rows written. -/
def nativeDataWrite (commit : Snapshot → Except String Unit) (schema : String) (value : V)
    (replace : Bool) (store : NativeStore V) : Except String Nat × NativeStore V :=
  mutateNativeData codec commit store
    (changeRows codec schema (planWrite codec schema value replace) 1)

def nativeDataReplaceRows {α : Type} (commit : Snapshot → Except String Unit) (schema : String)
    (rows : List V) (done : α) (store : NativeStore V) : Except String α × NativeStore V :=
  mutateNativeData codec commit store (changeRows codec schema (fun _ => .ok rows) done)

def nativeDataRows (schema : String) (store : NativeStore V) : Except String (List V) :=
  match store.tables.lookup schema with
  | none => .error "DISP Data schema was not registered"
  | some table => .ok table.rows

/-- The rows on which a predicate is false. -/
def retain (predicate : V → Except String Bool) : List V → Except String (List V)
  | [] => .ok []
  | row :: rows => do
      checkRow codec row
      let removed ← predicate row
      let retained ← retain predicate rows
      return if removed then retained else row :: retained

/-- The removal of the rows on which a predicate is true; the answer is their number. -/
def dataRemove (commit : Snapshot → Except String Unit) (schema : String)
    (predicate : V → Except String Bool) (store : NativeStore V) :
    Except String Nat × NativeStore V :=
  match nativeDataRows schema store with
  | .error error => (.error error, store)
  | .ok rows =>
    match retain codec predicate rows with
    | .error error => (.error error, store)
    | .ok retained =>
      nativeDataReplaceRows codec commit schema retained (rows.length - retained.length) store

/-! ## The three changes -/

/-- An insert, a replace or a remove. -/
inductive Change (V : Type)
  | write (value : V) (replace : Bool)
  | remove (predicate : V → Except String Bool)

def Change.plan (schema : String) : Change V → Table V → Except String (List V)
  | .write value replace, table => planWrite codec schema value replace table
  | .remove predicate, table => retain codec predicate table.rows

def runChange (commit : Snapshot → Except String Unit) (schema : String) :
    Change V → NativeStore V → Except String Nat × NativeStore V
  | .write value replace, store => nativeDataWrite codec commit schema value replace store
  | .remove predicate, store => dataRemove codec commit schema predicate store

end Tables

end Disp.Data

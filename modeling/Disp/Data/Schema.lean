import Disp.Data.Tables

/-!
# Schema registration

`data_ensure_schema`, which every data operation runs first.  A schema that is not registered
yet takes over the stored table of its name, after a check that the stored layout evolves into
the declared one, or starts an empty table.  Stored rows are read through a `RowReader`:
parsing, the migration of one row and its decoding.
-/

namespace Disp.Data

open Disp.Library.Codec Disp.Library.Postings
open Disp.Store (Field Snapshot)

/-- A declared field, with `from(...)` and whether it has a `default(...)`. -/
structure SchemaField where
  field : Field
  migrationFrom : Option String
  hasDefault : Bool
  deriving DecidableEq, Repr

structure Schema where
  name : String
  fields : List SchemaField
  constraints : List Constraint
  /-- The checker admits one primary field. -/
  one_primary : ∀ {i j : Nat} {declared other : SchemaField}, fields[i]? = some declared →
    fields[j]? = some other → declared.field.primary = true → other.field.primary = true → i = j

def Schema.nativeFields (schema : Schema) : List Field :=
  schema.fields.map SchemaField.field

structure RowReader (V J : Type) where
  parse : Bytes → Except String J
  migrate : Schema → List Field → J → Except String J
  decode : Schema → J → Except String V

/-! ## Evolution of the layout -/

/-- A stored field against the declared one in its place; the answer is whether it changed. -/
def evolveField (schema : String) (stored : Field) (current : SchemaField) :
    Except String Bool :=
  if stored.name ≠ current.field.name ∧ current.migrationFrom ≠ some stored.name then
    .error (s!"stored `{schema}` field `{stored.name}` requires an explicit " ++
      s!"`from({stored.name})` rename")
  else if stored.storage ≠ current.field.storage ∨ stored.optional ≠ current.field.optional ∨
      stored.primary ≠ current.field.primary then
    .error s!"stored `{schema}.{stored.name}` changed type, optionality, or primary identity"
  else if (stored.unique ∧ ¬ current.field.unique) ∨ (stored.indexed ∧ ¬ current.field.indexed) then
    .error s!"stored `{schema}.{stored.name}` removes an existing constraint or index"
  else
    .ok (stored.name != current.field.name || stored.unique != current.field.unique ||
      stored.indexed != current.field.indexed)

def evolveFields (schema : String) : List (Field × SchemaField) → Except String Bool
  | [] => .ok false
  | (stored, current) :: rest => do
      let changed ← evolveField schema stored current
      let others ← evolveFields schema rest
      return changed || others

/-- A new field needs a value for the rows already stored. -/
def checkNewFields (schema : String) : List SchemaField → Except String Unit
  | [] => .ok ()
  | declared :: rest =>
    if (¬ declared.field.optional ∧ ¬ declared.hasDefault) ∨ declared.field.primary then
      .error (s!"new data field `{schema}.{declared.field.name}` must be optional or declare " ++
        "`default(...)`")
    else
      checkNewFields schema rest

def checkKeptConstraints (schema : String) : List (Constraint × Constraint) → Except String Unit
  | [] => .ok ()
  | (stored, current) :: rest =>
    if stored ≠ current then
      .error s!"stored `{schema}` constraint `{stored.name}` was reordered or changed"
    else
      checkKeptConstraints schema rest

/-- Whether the stored layout may become the declared one, and whether it differs. -/
def schemaEvolution (schema : Schema) (storedFields : List Field)
    (storedConstraints : List Constraint) : Except String Bool := do
  if schema.fields.length < storedFields.length then
    .error s!"stored `{schema.name}` has fields removed by the current schema"
  let changed ← evolveFields schema.name (storedFields.zip schema.fields)
  checkNewFields schema.name (schema.fields.drop storedFields.length)
  if schema.constraints.length < storedConstraints.length then
    .error s!"stored `{schema.name}` has a named constraint removed by the current schema"
  checkKeptConstraints schema.name (storedConstraints.zip schema.constraints)
  return changed || storedFields.length != schema.fields.length ||
    storedConstraints.length != schema.constraints.length

/-- A stored constraint over field positions; the decoder of the file has checked the names. -/
def storedConstraint (fields : List Field) (constraint : Disp.Store.Constraint) :
    Except String Constraint := do
  let positions ← constraint.fields.mapM fun name =>
    match fields.findIdx? (·.name == name) with
    | some position => .ok position
    | none => .error "durable decoder validates constrained fields"
  return ⟨constraint.name, constraint.unique, positions⟩

/-! ## Registration -/

section Registration

variable {V J : Type} (codec : RowCodec V) (reader : RowReader V J)

/-- Rows are rewritten when a field was added or renamed. -/
def migrateRows (schema : Schema) (storedFields : List Field) (rows : List J) :
    Except String (List J) :=
  if storedFields.map Field.name = schema.nativeFields.map Field.name then
    .ok rows
  else
    rows.mapM (reader.migrate schema storedFields)

/-- A table over rows, with its indexes; the checker has made sure of a primary field. -/
def newTable (schema : Schema) (rows : List V) : Except String (Table V) := do
  let some primary := schema.nativeFields.findIdx? Field.primary
    | .error "validated data schema has one primary field"
  let indexes ← nativeDataIndexes codec schema.nativeFields rows
  let compositeIndexes ←
    nativeDataCompositeIndexes codec schema.nativeFields schema.constraints rows
  return {
    fields := schema.nativeFields
    primary
    rows
    indexes
    constraints := schema.constraints
    compositeIndexes }

/-- The stored table under the declared layout, and whether the layout changed. -/
def loadTable (schema : Schema) (persisted : Disp.Store.Table) :
    Except String (Bool × Table V) := do
  let storedConstraints ← persisted.constraints.mapM (storedConstraint persisted.fields)
  let changed ← schemaEvolution schema persisted.fields storedConstraints
  let rows ← persisted.rows.mapM reader.parse
  let rows ← migrateRows reader schema persisted.fields rows
  let rows ← rows.mapM (reader.decode schema)
  let table ← newTable codec schema rows
  return (changed, table)

def NativeStore.register (store : NativeStore V) (name : String) (table : Table V) :
    NativeStore V :=
  { store with pending := store.pending.erase name, tables := store.tables.insert name table }

/-- `data_ensure_schema` on a native store. -/
def ensureSchema (commit : Snapshot → Except String Unit) (schema : Schema)
    (store : NativeStore V) : Except String Unit × NativeStore V :=
  match store.tables.lookup schema.name with
  | some table =>
    if table.fields = schema.nativeFields ∧ table.constraints = schema.constraints then
      (.ok (), store)
    else
      (.error s!"stored `{schema.name}` layout does not match its DISP Data schema", store)
  | none =>
    match store.pending.lookup schema.name with
    | some persisted =>
      match loadTable codec reader schema persisted with
      | .error error => (.error error, store)
      | .ok (true, table) =>
        mutateNativeData codec commit store fun store =>
          (.ok (), store.register schema.name table)
      | .ok (false, table) => (.ok (), store.register schema.name table)
    | none =>
      match newTable codec schema [] with
      | .error error => (.error error, store)
      | .ok table =>
        mutateNativeData codec commit store fun store =>
          (.ok (), { store with tables := store.tables.insert schema.name table })

/-! ## Runs -/

/-- A data operation of the program, and what the file system answers to its writing back. -/
inductive Operation (V : Type)
  | register (schema : Schema) (commit : Snapshot → Except String Unit)
  | change (schema : String) (change : Change V) (commit : Snapshot → Except String Unit)
  | query

/-- The store after an operation, whether it succeeded or not. -/
def step (operation : Operation V) (store : NativeStore V) : NativeStore V :=
  match operation with
  | .register schema commit => (ensureSchema codec reader commit schema store).2
  | .change schema change commit => (runChange codec commit schema change store).2
  | .query => store

def run (operations : List (Operation V)) (store : NativeStore V) : NativeStore V :=
  operations.foldl (fun store operation => step codec reader operation store) store

end Registration

end Disp.Data

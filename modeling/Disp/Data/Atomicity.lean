import Disp.Data.Tables

/-!
# Failed changes to a data store

A change that fails is to leave the store as it was.  `mutate_native_data` puts the previous
store back only when a durable one cannot be written; an operation that fails by itself has
to have changed nothing.  A write sets the rows before the indexes are rebuilt, and checks
neither an indexed field nor a constraint that is not unique, so the rebuilding can be the
first to meet a value that has no JSON encoding.
-/

namespace Disp.Data

open Disp.Library.Codec Disp.Library.Postings
open Disp.Store (Field Snapshot)

/-- The same tables and the same pending tables. -/
def NativeStore.Same {V : Type} (store other : NativeStore V) : Prop :=
  (∀ name, store.tables.lookup name = other.tables.lookup name) ∧
    ∀ name, store.pending.lookup name = other.pending.lookup name

section Atomicity

variable {V : Type} (codec : RowCodec V)

/-- Rows that the indexes of a table can be built over: every keyed field and constraint of
every row has a key, and no two rows share the key of a unique one. -/
def Table.Indexes (table : Table V) (rows : List V) : Prop :=
  Indexable (checkRow codec) (table.fields.map (fieldColumn codec)) [] rows ∧
    Indexable (checkRow codec) (table.constraints.map (constraintColumn codec table.fields)) [] rows

theorem rebuildIndexes_eq_ok_iff (table : Table V) :
    (∃ rebuilt, rebuildIndexes codec table = .ok rebuilt) ↔ table.Indexes codec table.rows := by
  unfold Table.Indexes
  rw [← build_eq_ok_iff, ← build_eq_ok_iff]
  constructor
  · rintro ⟨rebuilt, h⟩
    obtain ⟨indexes, hidx, h⟩ := bind_eq_ok h
    obtain ⟨compositeIndexes, hcomp, -⟩ := bind_eq_ok h
    exact ⟨⟨indexes, hidx⟩, compositeIndexes, hcomp⟩
  · rintro ⟨⟨indexes, hidx⟩, compositeIndexes, hcomp⟩
    refine ⟨{ table with indexes, compositeIndexes }, ?_⟩
    simp only [rebuildIndexes, nativeDataIndexes, nativeDataCompositeIndexes, hidx, hcomp]
    rfl

theorem NativeStore.Same.refl (store : NativeStore V) : store.Same store :=
  ⟨fun _ => rfl, fun _ => rfl⟩

theorem same_insert_iff {store : NativeStore V} {schema : String} {table changed : Table V}
    (h : store.tables.lookup schema = some table) :
    NativeStore.Same { store with tables := store.tables.insert schema changed } store ↔
      changed = table := by
  constructor
  · rintro ⟨htables, -⟩
    have hschema := htables schema
    simp only [AList.lookup_insert, h] at hschema
    exact Option.some.inj hschema
  · rintro rfl
    refine ⟨fun name => ?_, fun _ => rfl⟩
    by_cases hname : name = schema
    · subst hname
      rw [AList.lookup_insert, h]
    · exact AList.lookup_insert_ne hname

variable {codec}

/-- The one way a failed change alters the store: it set rows that cannot be indexed. -/
theorem changeRows_error_iff {α : Type} {commit : Snapshot → Except String Unit} {schema : String}
    {plan : Table V → Except String (List V)} {done : α} {store : NativeStore V} {error : String}
    (h : (mutateNativeData codec commit store (changeRows codec schema plan done)).1 =
      .error error) :
    (mutateNativeData codec commit store (changeRows codec schema plan done)).2.Same store ↔
      ∀ table rows, store.tables.lookup schema = some table → plan table = .ok rows →
        table.Indexes codec rows ∨ rows = table.rows := by
  unfold mutateNativeData changeRows at h ⊢
  cases htable : store.tables.lookup schema with
  | none => simp [NativeStore.Same.refl]
  | some table =>
    cases hplan : plan table with
    | error _ =>
      simp only [hplan, NativeStore.Same.refl, true_iff]
      intro other rows hother hrows
      cases hother
      rw [hplan] at hrows
      cases hrows
    | ok rows =>
      have hcond : (∀ other kept, some table = some other → plan other = .ok kept →
          other.Indexes codec kept ∨ kept = other.rows) ↔
            (table.Indexes codec rows ∨ rows = table.rows) := by
        constructor
        · exact fun hall => hall table rows rfl hplan
        · intro hone other kept hother hkept
          cases hother
          rw [hplan] at hkept
          cases hkept
          exact hone
      rw [hcond]
      have hiff := rebuildIndexes_eq_ok_iff codec { table with rows }
      simp only [htable, hplan, setRows] at h ⊢
      cases hrebuild : rebuildIndexes codec { table with rows } with
      | error _ =>
        have hnot : ¬ table.Indexes codec rows := by
          intro hidx
          obtain ⟨rebuilt, hrebuilt⟩ := hiff.mpr hidx
          rw [hrebuild] at hrebuilt
          cases hrebuilt
        simp only [Except.map, same_insert_iff htable, hnot, false_or]
        exact ⟨fun heq => congrArg Table.rows heq, fun heq => by rw [heq]⟩
      | ok rebuilt =>
        have hidx : table.Indexes codec rows := hiff.mp ⟨rebuilt, hrebuild⟩
        simp only [hidx, true_or, iff_true]
        simp only [hrebuild, Except.map] at h ⊢
        -- only the writing back can have failed, and an in-memory store is not written
        split at h
        · cases h
        · rename_i hpersist
          cases hpath : store.path with
          | none => simp [persistNativeData, hpath] at hpersist
          | some path => exact NativeStore.Same.refl store

theorem dataRemove_eq (codec : RowCodec V) (commit : Snapshot → Except String Unit)
    (schema : String) (predicate : V → Except String Bool) (store : NativeStore V) :
    ∃ removed : Nat, dataRemove codec commit schema predicate store =
      mutateNativeData codec commit store
        (changeRows codec schema (fun table => retain codec predicate table.rows) removed) := by
  cases htable : store.tables.lookup schema with
  | none => exact ⟨0, by simp [dataRemove, nativeDataRows, mutateNativeData, changeRows, htable]⟩
  | some table =>
    cases hretained : retain codec predicate table.rows with
    | error _ =>
      exact ⟨0, by
        simp [dataRemove, nativeDataRows, mutateNativeData, changeRows, htable, hretained]⟩
    | ok retained =>
      exact ⟨table.rows.length - retained.length, by
        simp [dataRemove, nativeDataRows, nativeDataReplaceRows, mutateNativeData, changeRows,
          htable, hretained]⟩

/-- A failed insert, replace or remove leaves the store as it was precisely when the rows it
goes on to set, if its own checks pass, can be indexed or are those the table has. -/
theorem failed_change_keeps_store_iff {commit : Snapshot → Except String Unit} {schema : String}
    {change : Change V} {store : NativeStore V} {error : String}
    (h : (runChange codec commit schema change store).1 = .error error) :
    (runChange codec commit schema change store).2.Same store ↔
      ∀ table rows, store.tables.lookup schema = some table →
        change.plan codec schema table = .ok rows →
          table.Indexes codec rows ∨ rows = table.rows := by
  cases change with
  | write value replace => exact changeRows_error_iff h
  | remove predicate =>
    obtain ⟨removed, heq⟩ := dataRemove_eq codec commit schema predicate store
    simp only [runChange, heq] at h ⊢
    exact changeRows_error_iff h

end Atomicity

/-! ## A value without an encoding -/

/-- Rows of numbers; `none` stands for a float that is not a number. -/
inductive Sample
  | number (value : Option Int)
  | row (cells : List (String × Option Int))
  deriving DecidableEq

def Sample.encodeNumber : Option Int → Except String String
  | some value => .ok (toString value)
  | none => .error "JSON cannot represent NaN or infinity"

def sampleCodec : RowCodec Sample where
  fields
    | .row cells => some fun name => (cells.lookup name).map .number
    | .number _ => none
  encode
    | .number value => Sample.encodeNumber value
    | .row cells => do
        let texts ← cells.mapM fun cell => do
          let text ← Sample.encodeNumber cell.2
          return s!"\"{cell.1}\":" ++ text
        return "\x7b" ++ ",".intercalate texts ++ "\x7d"
  equal
    | .number value, .number other => value.isSome && value = other
    | .row cells, .row others => cells = others && cells.all (·.2.isSome)
    | _, _ => false

def readingFields : List Field :=
  [⟨"id", "INTEGER", false, true, false, false⟩, ⟨"level", "REAL", false, false, false, true⟩]

/-- An in-memory store with one registered table and the rows given. -/
def readings (rows : List Sample) (indexes : List (Index String)) : NativeStore Sample where
  tables := AList.singleton "Reading" ⟨readingFields, 0, rows, indexes, [], []⟩
  pending := ∅
  path := none
  locked := false

def unmeasured : Sample := .row [("id", some 1), ("level", none)]

/-- The insert of a row whose indexed field has no encoding fails, and the row stays. -/
theorem failed_insert_keeps_row :
    let result := runChange sampleCodec (fun _ => .ok ()) "Reading" (.write unmeasured false)
      (readings [] [∅, ∅])
    result.1 = .error "JSON cannot represent NaN or infinity" ∧
      (result.2.tables.lookup "Reading").map Table.rows = some [unmeasured] ∧
      ¬ result.2.Same (readings [] [∅, ∅]) := by
  intro result
  have hrows : (result.2.tables.lookup "Reading").map Table.rows = some [unmeasured] := rfl
  refine ⟨rfl, hrows, fun hsame => ?_⟩
  rw [hsame.1 "Reading"] at hrows
  cases hrows

def measured : Sample := .row [("id", some 1), ("level", some 7)]

def measuredIndexes : List (Index String) :=
  [AList.singleton "1" [0], AList.singleton "7" [0]]

/-- A second insert under a primary value fails before anything is changed. -/
theorem duplicate_insert_keeps_store :
    (runChange sampleCodec (fun _ => .ok ()) "Reading" (.write measured false)
      (readings [measured] measuredIndexes)).2.Same (readings [measured] measuredIndexes) := by
  refine (failed_change_keeps_store_iff
    (show _ = Except.error "duplicate primary value for `Reading`" from rfl)).mpr ?_
  intro table rows htable hplan
  cases htable
  cases hplan

end Disp.Data

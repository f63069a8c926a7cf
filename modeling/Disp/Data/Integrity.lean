import Disp.Data.Atomicity
import Disp.Data.Schema
import Disp.Library.Pointwise

/-!
# The tables of a running store

What holds of every registered table along a run: the row limit, indexes that file exactly
the rows, and no value twice where it has to be unique.  The tables go by the encodings.  A step
keeps this if and only if the values it writes have an encoding in every field that is indexed
or constrained, and those that are equal where they have to be unique have the same one.
-/

namespace Disp.Data

open Disp.Library.Codec Disp.Library.Pointwise Disp.Library.Postings List
open Disp.Store (Field Snapshot)

section Integrity

variable {V : Type} (codec : RowCodec V) {field : Field} {row other : V} {key : String}
  {fields : List Field} {values : String → Option V} {table : Table V} {value : V} {rows : List V}
  {existing : Option Nat} {schema : String} {store : NativeStore V} {α : Type}

/-! ## What a table is to be -/

/-- The value of a field in a row. -/
def part (name : String) (row : V) : Option V :=
  codec.fields row >>= (· name)

/-- Two rows with equal values of a field. -/
def SameValue (name : String) (row other : V) : Prop :=
  ∃ value ∈ part codec name row, ∃ value' ∈ part codec name other, codec.equal value value' = true

/-- Two rows with one encoding of a field. -/
def SameText (name : String) (row other : V) : Prop :=
  (part codec name row).map codec.encode = (part codec name other).map codec.encode

structure Table.Intact (table : Table V) : Prop where
  limit : table.rows.length ≤ databaseRowLimit
  /-- Each key with the ascending positions of the rows that have it. -/
  indexes : List.Forall₂ (fun field index => Exact (fieldColumn codec field) table.rows index)
    table.fields table.indexes
  compositeIndexes : List.Forall₂ (fun constraint index =>
      Exact (constraintColumn codec table.fields constraint) table.rows index)
    table.constraints table.compositeIndexes
  unique : ∀ field ∈ table.fields, field.primary = true ∨ field.unique = true →
    table.rows.Pairwise fun row other => ¬ SameValue codec field.name row other
  uniqueTuple : ∀ constraint ∈ table.constraints, constraint.unique = true →
    table.rows.Pairwise fun row other => ¬ ∀ position ∈ constraint.fields,
      ∃ field, table.fields[position]? = some field ∧ SameValue codec field.name row other
  valid : ∀ index ∈ table.indexes ++ table.compositeIndexes, ∀ key, ∀ i ∈ postings index key,
    i < table.rows.length

/-- The working form: the indexes can be built over the rows, and are what is built. -/
structure Table.Sound (table : Table V) : Prop where
  limit : table.rows.length ≤ databaseRowLimit
  indexed : table.Indexes codec table.rows
  indexes : List.Forall₂ (Exact · table.rows) (table.fields.map (fieldColumn codec)) table.indexes
  compositeIndexes : List.Forall₂ (Exact · table.rows)
    (table.constraints.map (constraintColumn codec table.fields)) table.compositeIndexes
  primary : ∃ field, table.fields[table.primary]? = some field ∧ field.primary = true
  one_primary : ∀ {i : Nat} {field : Field}, table.fields[i]? = some field →
    field.primary = true → i = table.primary

variable {codec}

/-- Rows with equal values where they have to be unique have the same encodings there. -/
structure Table.Alike (codec : RowCodec V) (table : Table V) : Prop where
  field : ∀ field ∈ table.fields, field.primary = true ∨ field.unique = true →
    table.rows.Pairwise fun row other =>
      SameValue codec field.name row other → SameText codec field.name row other
  tuple : ∀ constraint ∈ table.constraints, constraint.unique = true →
    table.rows.Pairwise fun row other =>
      (∀ position ∈ constraint.fields, ∃ field, table.fields[position]? = some field ∧
        SameValue codec field.name row other) →
      ∀ position ∈ constraint.fields, ∃ field, table.fields[position]? = some field ∧
        SameText codec field.name row other

theorem Table.Intact.alike (h : table.Intact codec) : table.Alike codec := by
  refine ⟨fun field hmem huniq => ?_, fun constraint hmem huniq => ?_⟩
  · exact (h.unique field hmem huniq).imp fun hne hsame => absurd hsame hne
  · exact (h.uniqueTuple constraint hmem huniq).imp fun hne hsame => absurd hsame hne

theorem part_eq (hvals : codec.fields row = some values) (name : String) :
    part codec name row = values name := by
  rw [part, hvals]
  rfl

theorem fieldKey_congr {others : String → Option V} {name missing : String}
    (h : (values name).map codec.encode = (others name).map codec.encode) :
    fieldKey codec values name missing = fieldKey codec others name missing := by
  unfold fieldKey
  cases hval : values name <;> cases hother : others name <;> simp_all

theorem hasKey_of_sameText (hsame : SameText codec field.name row other) {found : String}
    (h : (fieldColumn codec field).HasKey key row)
    (hother : (fieldColumn codec field).HasKey found other) :
    (fieldColumn codec field).HasKey key other := by
  simp only [Column.HasKey, fieldColumn, rowKey] at h hother ⊢
  cases hvals : codec.fields row with
  | none =>
    rw [hvals] at h
    cases h
  | some values =>
    cases hothers : codec.fields other with
    | none =>
      rw [hothers] at hother
      cases hother
    | some others =>
      rw [hvals] at h
      rw [SameText, part_eq hvals, part_eq hothers] at hsame
      exact (fieldKey_congr hsame).symm.trans h

theorem compositeKey_congr {others : String → Option V} {positions : List Nat}
    (h : ∀ position ∈ positions, ∃ field, fields[position]? = some field ∧
      (values field.name).map codec.encode = (others field.name).map codec.encode) :
    compositeKey codec fields values positions = compositeKey codec fields others positions := by
  induction positions with
  | nil => rfl
  | cons position positions ih =>
    obtain ⟨field, hfield, hval⟩ := h position mem_cons_self
    rw [compositeKey, compositeKey, hfield,
      ih fun other hother => h other (mem_cons_of_mem _ hother)]
    simp only [fieldKey_congr hval]

theorem hasTupleKey_of_sameTexts {constraint : Constraint} {found : String}
    (hsame : ∀ position ∈ constraint.fields,
      ∃ field, fields[position]? = some field ∧ SameText codec field.name row other)
    (h : (constraintColumn codec fields constraint).HasKey key row)
    (hother : (constraintColumn codec fields constraint).HasKey found other) :
    (constraintColumn codec fields constraint).HasKey key other := by
  simp only [Column.HasKey, constraintColumn, rowKey] at h hother ⊢
  cases hvals : codec.fields row with
  | none =>
    rw [hvals] at h
    cases h
  | some values =>
    cases hothers : codec.fields other with
    | none =>
      rw [hothers] at hother
      cases hother
    | some others =>
      rw [hvals] at h
      rw [← h]
      refine (compositeKey_congr fun position hpos => ?_).symm
      obtain ⟨field, hfield, htext⟩ := hsame position hpos
      rw [SameText, part_eq hvals, part_eq hothers] at htext
      exact ⟨field, hfield, htext⟩

theorem Table.Sound.intact (h : table.Sound codec) (halike : table.Alike codec) :
    table.Intact codec := by
  obtain ⟨hfields, hconstrs⟩ := h.indexed
  rw [indexable_iff] at hfields hconstrs
  have hvalid : ∀ {column : Column V String String} {index : Index String},
      Exact column table.rows index → ∀ key, ∀ i ∈ postings index key, i < table.rows.length := by
    intro column index hexact key i hi
    cases hkeyed : column.keyed with
    | false =>
      rw [hexact key, hkeyed] at hi
      cases hi
    | true =>
      obtain ⟨row, hrow, -⟩ := (hexact.mem_postings_iff hkeyed).mp hi
      exact (List.getElem?_eq_some_iff.mp hrow).1
  have hidx := h.indexes
  have hcomp := h.compositeIndexes
  rw [forall₂_map_left_iff] at hidx hcomp
  refine ⟨h.limit, hidx, hcomp, ?_, ?_, ?_⟩
  · intro field hmem huniq
    have hkeyed : (fieldColumn codec field).keyed = true := by
      rcases huniq with huniq | huniq <;> simp [fieldColumn, huniq]
    have hapart := hfields.2 _ (mem_map_of_mem hmem) hkeyed
      (by rcases huniq with huniq | huniq <;> simp [fieldColumn, huniq])
    refine List.Pairwise.imp_of_mem ?_ (hapart.and (halike.field field hmem huniq))
    rintro row other hrow hother ⟨hapart, halike⟩ hsame
    obtain ⟨key, hkey⟩ := (hfields.1 _ hrow).2 _ (mem_map_of_mem hmem) hkeyed
    obtain ⟨found, hfound⟩ := (hfields.1 _ hother).2 _ (mem_map_of_mem hmem) hkeyed
    exact hapart key hkey (hasKey_of_sameText (halike hsame) hkey hfound)
  · intro constraint hmem huniq
    have hapart := hconstrs.2 _ (mem_map_of_mem hmem) rfl huniq
    refine List.Pairwise.imp_of_mem ?_ (hapart.and (halike.tuple constraint hmem huniq))
    rintro row other hrow hother ⟨hapart, halike⟩ hsame
    obtain ⟨key, hkey⟩ := (hconstrs.1 _ hrow).2 _ (mem_map_of_mem hmem) rfl
    obtain ⟨found, hfound⟩ := (hconstrs.1 _ hother).2 _ (mem_map_of_mem hmem) rfl
    exact hapart key hkey (hasTupleKey_of_sameTexts (halike hsame) hkey hfound)
  · intro index hindex
    rcases mem_append.mp hindex with hindex | hindex
    · obtain ⟨field, -, hexact⟩ := exists_of_mem_right hidx hindex
      exact hvalid hexact
    · obtain ⟨constraint, -, hexact⟩ := exists_of_mem_right hcomp hindex
      exact hvalid hexact

/-! ## The values that a write needs -/

/-- A value with an encoding in every field that is indexed or constrained. -/
structure Table.Encodes (codec : RowCodec V) (table : Table V) (value : V) : Prop where
  fields : ∀ {values}, codec.fields value = some values → ∀ field ∈ table.fields,
    field.primary = true ∨ field.unique = true ∨ field.indexed = true →
      ∃ part text, values field.name = some part ∧ codec.encode part = .ok text
  constraints : ∀ {values}, codec.fields value = some values →
    ∀ constraint ∈ table.constraints, ∀ position ∈ constraint.fields,
      ∃ field part text, table.fields[position]? = some field ∧ values field.name = some part ∧
        codec.encode part = .ok text

theorem fieldKey_eq_ok {name missing : String} (h : fieldKey codec values name missing = .ok key) :
    ∃ part, values name = some part ∧ codec.encode part = .ok key := by
  unfold fieldKey at h
  cases hpart : values name with
  | none =>
    rw [hpart] at h
    cases h
  | some part =>
    rw [hpart] at h
    exact ⟨part, rfl, h⟩

theorem exists_compositeKey_iff {positions : List Nat} :
    (∃ key, compositeKey codec fields values positions = .ok key) ↔
      ∀ position ∈ positions, ∃ field part text, fields[position]? = some field ∧
        values field.name = some part ∧ codec.encode part = .ok text := by
  induction positions with
  | nil => exact iff_of_true ⟨"", rfl⟩ (forall_mem_nil _)
  | cons position positions ih =>
    rw [forall_mem_cons, ← ih]
    constructor
    · rintro ⟨key, h⟩
      rw [compositeKey] at h
      split at h
      · rename_i field hfield
        obtain ⟨text, htext, h⟩ := bind_eq_ok h
        obtain ⟨others, hothers, -⟩ := bind_eq_ok h
        obtain ⟨part, hpart, hencode⟩ := fieldKey_eq_ok htext
        exact ⟨⟨field, part, text, hfield, hpart, hencode⟩, others, hothers⟩
      · cases h
    · rintro ⟨⟨field, part, text, hfield, hpart, htext⟩, others, hothers⟩
      refine ⟨s!"{text.utf8ByteSize}:" ++ text ++ others, ?_⟩
      simp only [compositeKey, hfield, fieldKey, hpart, htext, hothers]
      rfl

/-- A value has its encodings exactly if it has its keys. -/
theorem Table.encodes_iff (hvals : codec.fields value = some values) :
    table.Encodes codec value ↔
      HasKeys (checkRow codec) (table.fields.map (fieldColumn codec)) value ∧
        HasKeys (checkRow codec) (table.constraints.map (constraintColumn codec table.fields))
          value := by
  have hcheck : checkRow codec value = .ok () := by simp [checkRow, hvals]
  have hkeyed (field : Field) : (fieldColumn codec field).keyed = true ↔
      field.primary = true ∨ field.unique = true ∨ field.indexed = true := by
    simp [fieldColumn, or_assoc]
  have hcomposite (constraint : Constraint) :
      (∃ key, (constraintColumn codec table.fields constraint).HasKey key value) ↔
        ∃ key, compositeKey codec table.fields values constraint.fields = .ok key := by
    simp only [Column.HasKey, constraintColumn, rowKey, hvals]
  simp only [HasKeys, hcheck, true_and, forall_mem_map, hkeyed]
  constructor
  · intro h
    refine ⟨fun field hmem hflags => ?_, fun constraint hmem _ => ?_⟩
    · obtain ⟨part, text, hpart, htext⟩ := h.fields hvals field hmem hflags
      exact ⟨text, by simp [Column.HasKey, fieldColumn, rowKey, hvals, fieldKey, hpart, htext]⟩
    · exact (hcomposite constraint).mpr
        (exists_compositeKey_iff.mpr (h.constraints hvals constraint hmem))
  · rintro ⟨hfields, hconstrs⟩
    refine ⟨fun hvals' field hmem hflags => ?_, fun hvals' constraint hmem => ?_⟩
    · cases hvals.symm.trans hvals'
      obtain ⟨key, hkey⟩ := hfields field hmem hflags
      simp only [Column.HasKey, fieldColumn, rowKey, hvals] at hkey
      obtain ⟨part, hpart, hencode⟩ := fieldKey_eq_ok hkey
      exact ⟨part, key, hpart, hencode⟩
    · cases hvals.symm.trans hvals'
      exact exists_compositeKey_iff.mp ((hcomposite constraint).mp (hconstrs constraint hmem rfl))

/-! ## What the checks of a write establish -/

theorem apart_of_not_conflicts {column : Column V String String} {index : Index String}
    (hexact : Exact column rows index) (hkeyed : column.keyed = true)
    (hpairwise : rows.Pairwise column.Apart) (hkey : column.HasKey key value)
    (hconf : conflicts existing index key = false) {i : Nat} (hother : rows[i]? = some other)
    (hne : some i ≠ existing) : column.Apart other value := by
  intro found hfound hval
  obtain rfl : key = found := Except.ok.inj (hkey.symm.trans hval)
  have hmem : i ∈ postings index key := (hexact.mem_postings_iff hkeyed).mpr ⟨other, hother, hfound⟩
  obtain ⟨first, rest, hpostings⟩ := exists_cons_of_ne_nil (ne_nil_of_mem hmem)
  have hfirst : some first = existing := by
    simpa [conflicts, hpostings] using hconf
  have hfirstMem : first ∈ postings index key := hpostings ▸ mem_cons_self
  obtain ⟨row, hrow, hrowKey⟩ := (hexact.mem_postings_iff hkeyed).mp hfirstMem
  have hpos : i ≠ first := fun heq => hne (heq ▸ hfirst)
  exact Column.apart_of_pairwise hpairwise hother hrow hpos key hfound hrowKey

theorem checkDemands_eq_ok {demands : List Demand} (h : checkDemands existing demands = .ok ())
    {demand : Demand} (hmem : demand ∈ demands) (huniq : demand.unique = true) :
    ∃ key, demand.candidate = .ok key ∧ conflicts existing demand.index key = false := by
  induction demands with
  | nil => cases hmem
  | cons head demands ih =>
    unfold checkDemands at h
    rcases mem_cons.mp hmem with rfl | hmem
    · rw [if_pos huniq] at h
      obtain ⟨key, hkey, h⟩ := bind_eq_ok h
      refine ⟨key, hkey, ?_⟩
      cases hconf : conflicts existing demand.index key with
      | false => rfl
      | true =>
        rw [hconf] at h
        cases h
    · refine ih ?_ hmem
      split at h
      · obtain ⟨key, -, h⟩ := bind_eq_ok h
        split at h
        · cases h
        · exact h
      · exact h

/-- The checks passed, and the rows are the old ones with the new value in its place. -/
structure Planned (codec : RowCodec V) (schema : String) (table : Table V) (value : V)
    (existing : Option Nat) (values : String → Option V) (rows : List V) : Prop where
  opened : codec.fields value = some values
  found : existingRow codec table values = .ok existing
  unique : checkUnique codec schema existing values (table.fields.zip table.indexes) = .ok ()
  constraints : checkConstraints codec schema table.fields existing values
    (table.constraints.zip table.compositeIndexes) = .ok ()
  placed : (∃ position, existing = some position ∧ rows = table.rows.set position value) ∨
    (existing = none ∧ table.rows.length < databaseRowLimit ∧ rows = table.rows ++ [value])

theorem planWrite_eq_ok {replace : Bool}
    (h : planWrite codec schema value replace table = .ok rows) :
    ∃ existing values, Planned codec schema table value existing values rows := by
  unfold planWrite at h
  cases hvals : codec.fields value with
  | none =>
    rw [hvals] at h
    cases h
  | some values =>
    rw [hvals] at h
    obtain ⟨existing, hex, h⟩ := bind_eq_ok h
    obtain ⟨⟨⟩, huniq, h⟩ := bind_eq_ok h
    obtain ⟨⟨⟩, hconstrs, h⟩ := bind_eq_ok h
    refine ⟨existing, values, hvals, hex, huniq, hconstrs, ?_⟩
    cases existing with
    | some position =>
      cases replace with
      | false => cases h
      | true =>
        cases h
        exact .inl ⟨position, rfl, rfl⟩
    | none =>
      simp only at h
      split at h
      · cases h
      · rename_i hroom
        cases h
        exact .inr ⟨rfl, Nat.lt_of_not_le hroom, rfl⟩

theorem hasKey_of_fieldKey (hvals : codec.fields value = some values) {missing : String}
    (h : fieldKey codec values field.name missing = .ok key) :
    (fieldColumn codec field).HasKey key value := by
  obtain ⟨part, hpart, hencode⟩ := fieldKey_eq_ok h
  simp only [Column.HasKey, fieldColumn, rowKey, hvals, fieldKey, hpart, hencode]

theorem existingRow_eq_ok (h : existingRow codec table values = .ok existing) :
    ∃ field index key missing, table.fields[table.primary]? = some field ∧
      table.indexes[table.primary]? = some index ∧
      fieldKey codec values field.name missing = .ok key ∧
      existing = (postings index key).head? := by
  unfold existingRow at h
  cases hfield : table.fields[table.primary]? with
  | none =>
    rw [hfield] at h
    cases h
  | some field =>
    cases hindex : table.indexes[table.primary]? with
    | none =>
      rw [hfield, hindex] at h
      cases h
    | some index =>
      rw [hfield, hindex] at h
      obtain ⟨key, hkey, h⟩ := bind_eq_ok h
      cases h
      exact ⟨field, index, key, _, rfl, rfl, hkey, rfl⟩

theorem conflicts_head (index : Index String) (key : String) :
    conflicts (postings index key).head? index key = false := by
  cases hhead : (postings index key).head? <;> simp [conflicts, hhead]

section Plan

variable {table : Table V} {schema : String} {value : V} {existing : Option Nat}
  {values : String → Option V} {rows : List V} {i : Nat}

section

variable (h : Planned codec schema table value existing values rows) (hsound : table.Sound codec)

include h hsound

/-- The primary field, its index and the key by which the row to be replaced was found. -/
theorem Planned.looked_up : ∃ field index key,
    table.fields[table.primary]? = some field ∧ table.indexes[table.primary]? = some index ∧
      (fieldColumn codec field).keyed = true ∧ (fieldColumn codec field).HasKey key value ∧
      Exact (fieldColumn codec field) table.rows index ∧ existing = (postings index key).head? := by
  obtain ⟨field, index, key, missing, hfield, hindex, hkey, hfound⟩ := existingRow_eq_ok h.found
  obtain ⟨primary, hprimary, hflag⟩ := hsound.primary
  cases hprimary.symm.trans hfield
  obtain ⟨_, hindex', hexact, -⟩ :=
    exists_getElem?_right (forall₂_map_left_iff.mp hsound.indexes) hfield
  cases hindex.symm.trans hindex'
  exact ⟨field, index, key, hfield, hindex, by simp [fieldColumn, hflag],
    hasKey_of_fieldKey h.opened hkey, hexact, hfound⟩

/-- No row but the one to be replaced shares a unique field with the new value. -/
theorem Planned.apart_field (hfield : field ∈ table.fields)
    (hkeyed : (fieldColumn codec field).keyed = true)
    (huniq : (fieldColumn codec field).unique = true) (hother : table.rows[i]? = some other)
    (hne : some i ≠ existing) : (fieldColumn codec field).Apart other value := by
  have hpairwise := (indexable_iff.mp hsound.indexed.1).2 _ (mem_map_of_mem hfield) hkeyed huniq
  have hidx := forall₂_map_left_iff.mp hsound.indexes
  obtain ⟨j, hj⟩ := List.getElem?_of_mem hfield
  obtain ⟨index, hindex, hexact, hzip⟩ := exists_getElem?_right hidx hj
  by_cases hdecl : field.unique = true
  · obtain ⟨key, hkey, hconf⟩ :=
      checkDemands_eq_ok h.unique (mem_map_of_mem hzip) hdecl
    exact apart_of_not_conflicts hexact hkeyed hpairwise (hasKey_of_fieldKey h.opened hkey)
      hconf hother hne
  · -- the primary field: the row that was looked up is the one with this value
    have hprimary : field.primary = true := by simpa [fieldColumn, hdecl] using huniq
    obtain ⟨primary, primaryIndex, key, hfield', hindex', -, hkey, -, hfound⟩ := h.looked_up hsound
    rw [← hsound.one_primary hj hprimary] at hfield' hindex'
    cases hj.symm.trans hfield'
    cases hindex.symm.trans hindex'
    have hconf : conflicts existing index key = false := hfound ▸ conflicts_head index key
    exact apart_of_not_conflicts hexact hkeyed hpairwise hkey hconf hother hne

theorem Planned.apart_constraint {constraint : Constraint}
    (hconstr : constraint ∈ table.constraints) (huniq : constraint.unique = true)
    (hother : table.rows[i]? = some other) (hne : some i ≠ existing) :
    (constraintColumn codec table.fields constraint).Apart other value := by
  have hpairwise := (indexable_iff.mp hsound.indexed.2).2 _ (mem_map_of_mem hconstr) rfl huniq
  have hidx := forall₂_map_left_iff.mp hsound.compositeIndexes
  obtain ⟨j, hj⟩ := List.getElem?_of_mem hconstr
  obtain ⟨index, -, hexact, hzip⟩ := exists_getElem?_right hidx hj
  obtain ⟨key, hkey, hconf⟩ :=
    checkDemands_eq_ok h.constraints (mem_map_of_mem hzip) huniq
  refine apart_of_not_conflicts hexact rfl hpairwise ?_ hconf hother hne
  simpa only [Column.HasKey, constraintColumn, rowKey, h.opened] using hkey

/-- The rows with the new value in its place can be indexed, if the value has its keys. -/
theorem Planned.indexes (hencodes : table.Encodes codec value) : table.Indexes codec rows := by
  obtain ⟨hfields, hconstrs⟩ := (table.encodes_iff h.opened).mp hencodes
  rcases h.placed with ⟨position, rfl, rfl⟩ | ⟨rfl, -, rfl⟩
  · refine ⟨hsound.indexed.1.set hfields ?_, hsound.indexed.2.set hconstrs ?_⟩
    · rw [forall_mem_map]
      intro field hfield hkeyed huniq i other hother hne
      exact h.apart_field hsound hfield hkeyed huniq hother fun heq => hne (Option.some.inj heq)
    · rw [forall_mem_map]
      intro constraint hconstr _ huniq i other hother hne
      exact h.apart_constraint hsound hconstr huniq hother fun heq => hne (Option.some.inj heq)
  · constructor
    · rw [indexable_concat, admits_iff, forall_mem_map]
      refine ⟨hsound.indexed.1, hfields, fun field hfield hkeyed huniq other hother => ?_⟩
      obtain ⟨i, hi⟩ := List.getElem?_of_mem hother
      exact h.apart_field hsound hfield hkeyed huniq hi (by simp)
    · rw [indexable_concat, admits_iff, forall_mem_map]
      refine ⟨hsound.indexed.2, hconstrs, fun constraint hconstr _ huniq other hother => ?_⟩
      obtain ⟨i, hi⟩ := List.getElem?_of_mem hother
      exact h.apart_constraint hsound hconstr huniq hi (by simp)

theorem Planned.replaced {position : Nat} (hposition : existing = some position) :
    ∃ row, table.rows[position]? = some row := by
  obtain ⟨field, index, key, -, -, hkeyed, -, hexact, hfound⟩ := h.looked_up hsound
  have hmem := List.mem_of_head? (hfound.symm.trans hposition)
  obtain ⟨row, hrow, -⟩ := (hexact.mem_postings_iff hkeyed).mp hmem
  exact ⟨row, hrow⟩

theorem Planned.mem_rows : value ∈ rows := by
  rcases h.placed with ⟨position, rfl, rfl⟩ | ⟨-, -, rfl⟩
  · obtain ⟨row, hrow⟩ := h.replaced hsound rfl
    exact List.mem_set (List.getElem?_eq_some_iff.mp hrow).1 value
  · exact mem_append_right _ (mem_singleton_self _)

/-- Old indexes that are exact for the rows of a plan show that the new value has its keys: a
value in the place of another one has those of that one, and a value at the end is not filed. -/
theorem Planned.encodes_of_intact (hintact : Table.Intact codec { table with rows }) :
    table.Encodes codec value := by
  rcases h.placed with ⟨position, rfl, rfl⟩ | ⟨rfl, -, rfl⟩
  · obtain ⟨row, hrow⟩ := h.replaced hsound rfl
    have hnew : (table.rows.set position value)[position]? = some value := by
      rw [List.getElem?_set_self (List.getElem?_eq_some_iff.mp hrow).1]
    have hcopied {column : Column V String String} {index : Index String}
        (hold : Exact column table.rows index)
        (hexact : Exact column (table.rows.set position value) index) (hkeyed : column.keyed = true)
        (hkeys : ∃ key, column.HasKey key row) : ∃ key, column.HasKey key value := by
      obtain ⟨key, hkey⟩ := hkeys
      have hmem := (hold.mem_postings_iff hkeyed).mpr ⟨row, hrow, hkey⟩
      obtain ⟨_, hvalue, hkey⟩ := (hexact.mem_postings_iff hkeyed).mp hmem
      cases hnew.symm.trans hvalue
      exact ⟨key, hkey⟩
    have hmem := List.mem_of_getElem? hrow
    have hcheck : checkRow codec value = .ok () := by simp [checkRow, h.opened]
    have hfields := (indexable_iff.mp hsound.indexed.1).1 row hmem
    have hconstrs := (indexable_iff.mp hsound.indexed.2).1 row hmem
    rw [HasKeys, forall_mem_map] at hfields hconstrs
    refine (table.encodes_iff h.opened).mpr ⟨⟨hcheck, ?_⟩, hcheck, ?_⟩
    · rw [forall_mem_map]
      intro field hfield hkeyed
      obtain ⟨j, hj⟩ := List.getElem?_of_mem hfield
      obtain ⟨index, hindex, hold, -⟩ :=
        exists_getElem?_right (forall₂_map_left_iff.mp hsound.indexes) hj
      obtain ⟨_, hindex', hexact, -⟩ := exists_getElem?_right hintact.indexes hj
      cases hindex.symm.trans hindex'
      exact hcopied hold hexact hkeyed (hfields.2 field hfield hkeyed)
    · rw [forall_mem_map]
      intro constraint hconstr hkeyed
      obtain ⟨j, hj⟩ := List.getElem?_of_mem hconstr
      obtain ⟨index, hindex, hold, -⟩ :=
        exists_getElem?_right (forall₂_map_left_iff.mp hsound.compositeIndexes) hj
      obtain ⟨_, hindex', hexact, -⟩ := exists_getElem?_right hintact.compositeIndexes hj
      cases hindex.symm.trans hindex'
      exact hcopied hold hexact hkeyed (hconstrs.2 constraint hconstr hkeyed)
  · obtain ⟨field, index, key, hfield, hindex, hkeyed, hkey, hold, -⟩ := h.looked_up hsound
    obtain ⟨_, hindex', hexact, -⟩ := exists_getElem?_right hintact.indexes hfield
    cases hindex.symm.trans hindex'
    have hmem : table.rows.length ∈ postings index key :=
      (hexact.mem_postings_iff hkeyed).mpr ⟨value, by simp, hkey⟩
    obtain ⟨row, hrow, -⟩ := (hold.mem_postings_iff hkeyed).mp hmem
    exact absurd (List.getElem?_eq_some_iff.mp hrow).1 (Nat.lt_irrefl _)

theorem Planned.length_le : rows.length ≤ databaseRowLimit := by
  rcases h.placed with ⟨position, -, rfl⟩ | ⟨-, hroom, rfl⟩
  · rw [length_set]
    exact hsound.limit
  · rw [length_append]
    exact hroom

end

end Plan

/-! ## One step -/

structure NativeStore.Sound (codec : RowCodec V) (store : NativeStore V) : Prop where
  tables : ∀ {name table}, store.tables.lookup name = some table → table.Sound codec
  pending : ∀ {name stored}, store.pending.lookup name = some stored →
    stored.rows.length ≤ databaseRowLimit

theorem NativeStore.Sound.insert (h : store.Sound codec) {name : String}
    (htable : table.Sound codec) :
    NativeStore.Sound codec { store with tables := store.tables.insert name table } := by
  refine ⟨fun {other found} hfound => ?_, h.pending⟩
  by_cases hname : other = name
  · subst hname
    rw [AList.lookup_insert] at hfound
    cases hfound
    exact htable
  · rw [AList.lookup_insert_ne hname] at hfound
    exact h.tables hfound

theorem NativeStore.Sound.register (h : store.Sound codec) {name : String}
    (htable : table.Sound codec) : (store.register name table).Sound codec := by
  refine ⟨(h.insert htable).tables, fun {other stored} hstored => ?_⟩
  by_cases hname : other = name
  · subst hname
    rw [NativeStore.register, AList.lookup_erase] at hstored
    cases hstored
  · rw [NativeStore.register, AList.lookup_erase_ne hname] at hstored
    exact h.pending hstored

theorem setRows_sound (h : table.Sound codec) (hidx : table.Indexes codec rows)
    (hlimit : rows.length ≤ databaseRowLimit) : (setRows codec table rows).2.Sound codec := by
  obtain ⟨rebuilt, hrebuilt⟩ := (rebuildIndexes_eq_ok_iff codec { table with rows }).mpr hidx
  rw [setRows, hrebuilt]
  obtain ⟨indexes, hfields, hrebuilt⟩ := bind_eq_ok hrebuilt
  obtain ⟨compositeIndexes, hconstrs, hrebuilt⟩ := bind_eq_ok hrebuilt
  cases hrebuilt
  exact ⟨hlimit, hidx, build_exact hfields, build_exact hconstrs, h.primary, h.one_primary⟩

theorem mutateNativeData_sound {commit : Snapshot → Except String Unit}
    {operation : NativeStore V → Except String α × NativeStore V} (h : store.Sound codec)
    (hop : (operation store).2.Sound codec) :
    (mutateNativeData codec commit store operation).2.Sound codec := by
  unfold mutateNativeData
  split
  · rename_i hrun
    rwa [hrun] at hop
  · rename_i hrun
    rw [hrun] at hop
    split
    · exact hop
    · split
      · exact h
      · exact hop

theorem changeRows_sound {plan : Table V → Except String (List V)} {done : α}
    (h : store.Sound codec)
    (hplan : ∀ {table rows}, store.tables.lookup schema = some table → plan table = .ok rows →
      table.Indexes codec rows ∧ rows.length ≤ databaseRowLimit) :
    (changeRows codec schema plan done store).2.Sound codec := by
  unfold changeRows
  split
  · exact h
  · rename_i table htable
    split
    · exact h
    · rename_i rows hrows
      obtain ⟨hidx, hlimit⟩ := hplan htable hrows
      exact h.insert (setRows_sound (h.tables htable) hidx hlimit)

theorem retain_sublist {predicate : V → Except String Bool} {retained : List V}
    (h : retain codec predicate rows = .ok retained) : retained.Sublist rows := by
  induction rows generalizing retained with
  | nil =>
    cases h
    exact .slnil
  | cons row rows ih =>
    obtain ⟨⟨⟩, -, h⟩ := bind_eq_ok h
    obtain ⟨removed, -, h⟩ := bind_eq_ok h
    obtain ⟨kept, hkept, h⟩ := bind_eq_ok h
    cases h
    cases removed with
    | true => exact (ih hkept).cons row
    | false => exact (ih hkept).cons_cons row

theorem length_mapM {β : Type} {f : α → Except String β} {as : List α} {bs : List β}
    (h : as.mapM f = .ok bs) : bs.length = as.length := by
  induction as generalizing bs with
  | nil =>
    cases h
    rfl
  | cons a as ih =>
    rw [mapM_cons] at h
    obtain ⟨b, -, h⟩ := bind_eq_ok h
    obtain ⟨others, hothers, h⟩ := bind_eq_ok h
    cases h
    rw [length_cons, length_cons, ih hothers]

theorem newTable_sound {schema : Schema} (h : newTable codec schema rows = .ok table)
    (hlimit : rows.length ≤ databaseRowLimit) : table.Sound codec := by
  unfold newTable at h
  cases hprimary : schema.nativeFields.findIdx? Field.primary with
  | none =>
    rw [hprimary] at h
    cases h
  | some primary =>
    rw [hprimary] at h
    obtain ⟨indexes, hfields, h⟩ := bind_eq_ok h
    obtain ⟨compositeIndexes, hconstrs, h⟩ := bind_eq_ok h
    cases h
    obtain ⟨hbound, hfound, -⟩ := List.findIdx?_eq_some_iff_getElem.mp hprimary
    have hindexable := (build_eq_ok_iff _ _ rows).mp ⟨indexes, hfields⟩
    have hindexable' := (build_eq_ok_iff _ _ rows).mp ⟨compositeIndexes, hconstrs⟩
    obtain ⟨first, hfirst, hflagged⟩ : ∃ first, schema.nativeFields[primary]? = some first ∧
        first.primary = true := ⟨_, List.getElem?_eq_getElem hbound, hfound⟩
    refine ⟨hlimit, ⟨hindexable, hindexable'⟩, build_exact hfields, build_exact hconstrs,
      ⟨first, hfirst, hflagged⟩, ?_⟩
    intro i field hfield hflag
    simp only [Schema.nativeFields, List.getElem?_map, Option.map_eq_some_iff] at hfield hfirst
    obtain ⟨declared, hdecl, rfl⟩ := hfield
    obtain ⟨other, hother, rfl⟩ := hfirst
    exact schema.one_primary hdecl hother hflag hflagged

section Run

variable {J : Type} {reader : RowReader V J}

theorem loadTable_sound {schema : Schema} {persisted : Disp.Store.Table} {changed : Bool}
    (h : loadTable codec reader schema persisted = .ok (changed, table))
    (hlimit : persisted.rows.length ≤ databaseRowLimit) : table.Sound codec := by
  obtain ⟨storedConstraints, -, h⟩ := bind_eq_ok h
  obtain ⟨evolved, -, h⟩ := bind_eq_ok h
  obtain ⟨parsed, hparsed, h⟩ := bind_eq_ok h
  obtain ⟨migrated, hmigrated, h⟩ := bind_eq_ok h
  obtain ⟨rows, hrows, h⟩ := bind_eq_ok h
  obtain ⟨loaded, hloaded, h⟩ := bind_eq_ok h
  cases h
  have hlen : migrated.length = parsed.length := by
    unfold migrateRows at hmigrated
    split at hmigrated
    · cases hmigrated
      rfl
    · exact length_mapM hmigrated
  refine newTable_sound hloaded ?_
  rw [length_mapM hrows, hlen, length_mapM hparsed]
  exact hlimit

variable {commit : Snapshot → Except String Unit}

/-- Registration keeps every table sound, whatever becomes of it. -/
theorem ensureSchema_sound {schema : Schema}
    (h : store.Sound codec) : (ensureSchema codec reader commit schema store).2.Sound codec := by
  unfold ensureSchema
  split
  · split <;> exact h
  · split
    · rename_i persisted hpersisted
      have hlimit := h.pending hpersisted
      split
      · exact h
      · rename_i hload
        exact mutateNativeData_sound h (h.register (loadTable_sound hload hlimit))
      · rename_i hload
        exact h.register (loadTable_sound hload hlimit)
    · split
      · exact h
      · rename_i hnew
        exact mutateNativeData_sound h (h.insert (newTable_sound hnew (Nat.zero_le _)))

/-- The values a step writes, if its checks pass, have an encoding where it is needed. -/
def Operation.Encodes (codec : RowCodec V) (store : NativeStore V) : Operation V → Prop
  | .change schema (.write value replace) _ => ∀ table rows,
      store.tables.lookup schema = some table →
        planWrite codec schema value replace table = .ok rows → table.Encodes codec value
  | _ => True

theorem runChange_sound {change : Change V} (h : store.Sound codec)
    (hencodes : (Operation.change schema change commit).Encodes codec store) :
    (runChange codec commit schema change store).2.Sound codec := by
  cases change with
  | write value replace =>
    refine mutateNativeData_sound h (changeRows_sound h fun htable hplan => ?_)
    obtain ⟨existing, values, hplanned⟩ := planWrite_eq_ok hplan
    have hsound := h.tables htable
    exact ⟨hplanned.indexes hsound (hencodes _ _ htable hplan), hplanned.length_le hsound⟩
  | remove predicate =>
    obtain ⟨removed, heq⟩ := dataRemove_eq codec commit schema predicate store
    simp only [runChange, heq]
    refine mutateNativeData_sound h (changeRows_sound h fun htable hplan => ?_)
    have hsound := h.tables htable
    have hsublist := retain_sublist hplan
    exact ⟨⟨hsound.indexed.1.sublist hsublist, hsound.indexed.2.sublist hsublist⟩,
      hsublist.length_le.trans hsound.limit⟩

/-- A write that leaves its table intact has written a value with its encodings. -/
theorem encodes_of_intact {operation : Operation V} (h : store.Sound codec)
    (hintact : ∀ name table, (step codec reader operation store).tables.lookup name = some table →
      table.Intact codec) : operation.Encodes codec store := by
  match operation, hintact with
  | .register _ _, _ | .query, _ | .change _ (.remove _) _, _ => trivial
  | .change schema (.write value replace) commit, hintact =>
    intro table rows htable hplan
    obtain ⟨existing, values, hplanned⟩ := planWrite_eq_ok hplan
    by_cases hidx : table.Indexes codec rows
    · have hmem := hplanned.mem_rows (h.tables htable)
      exact (table.encodes_iff hplanned.opened).mpr
        ⟨(indexable_iff.mp hidx.1).1 value hmem, (indexable_iff.mp hidx.2).1 value hmem⟩
    · refine hplanned.encodes_of_intact (h.tables htable) (hintact schema _ ?_)
      obtain ⟨error, herror⟩ :
          ∃ error, rebuildIndexes codec { table with rows } = .error error := by
        cases hrebuild : rebuildIndexes codec { table with rows } with
        | error error => exact ⟨error, rfl⟩
        | ok rebuilt =>
          exact absurd ((rebuildIndexes_eq_ok_iff codec _).mp ⟨rebuilt, hrebuild⟩) hidx
      simp [step, runChange, nativeDataWrite, mutateNativeData, changeRows, htable, hplan, setRows,
        herror, Except.map]

theorem step_sound {operation : Operation V} (h : store.Sound codec)
    (hencodes : operation.Encodes codec store) :
    (step codec reader operation store).Sound codec := by
  cases operation with
  | register schema commit => exact ensureSchema_sound h
  | change schema change commit => exact runChange_sound h hencodes
  | query => exact h

/-! ## Whole runs -/

/-- A store that was just created or opened.  The decoder of the file refuses a table with
more rows than the limit. -/
structure NativeStore.Started (store : NativeStore V) : Prop where
  tables : store.tables = ∅
  pending : ∀ {name stored}, store.pending.lookup name = some stored →
    stored.rows.length ≤ databaseRowLimit

/-- Every step of a run writes only values that have their encodings, and leaves tables in which
values that are equal where they have to be unique have the same ones. -/
def Encodable (codec : RowCodec V) (reader : RowReader V J) :
    List (Operation V) → NativeStore V → Prop
  | [], _ => True
  | operation :: operations, store =>
    operation.Encodes codec store ∧
      (∀ name table, (step codec reader operation store).tables.lookup name = some table →
        table.Alike codec) ∧
      Encodable codec reader operations (step codec reader operation store)

theorem runs_intact_iff {operations : List (Operation V)} (h : store.Sound codec)
    (hintact : ∀ name table, store.tables.lookup name = some table → table.Intact codec) :
    (∀ done, done <+: operations → ∀ name table,
      (run codec reader done store).tables.lookup name = some table → table.Intact codec) ↔
      Encodable codec reader operations store := by
  induction operations generalizing store with
  | nil =>
    refine iff_of_true (fun done hdone => ?_) trivial
    obtain rfl := List.prefix_nil.mp hdone
    exact hintact
  | cons operation operations ih =>
    constructor
    · intro hruns
      have hstep := hruns [operation] (by simp)
      have hencodes := encodes_of_intact h hstep
      refine ⟨hencodes, fun name table htable => (hstep name table htable).alike, ?_⟩
      refine (ih (step_sound h hencodes) hstep).mp fun done hdone => ?_
      exact hruns (operation :: done) (List.cons_prefix_cons.mpr ⟨rfl, hdone⟩)
    · rintro ⟨hencodes, halike, hrest⟩ done hdone
      have hsound := @step_sound _ _ _ _ reader _ h hencodes
      have hstep : ∀ name table, (step codec reader operation store).tables.lookup name =
          some table → table.Intact codec :=
        fun name table htable => (hsound.tables htable).intact (halike name table htable)
      match done, hdone with
      | [], _ => exact hintact
      | other :: done, hdone =>
        obtain ⟨rfl, hfollowing⟩ := List.cons_prefix_cons.mp hdone
        exact (ih hsound hstep).mpr hrest done hfollowing

end Run

end Integrity

/-! ## Runs over the sample values -/

def readingSchema : Schema where
  name := "Reading"
  fields := readingFields.map fun field => ⟨field, none, false⟩
  constraints := []
  one_primary := by
    intro i j declared other hdeclared hother hprimary hprimary'
    rcases i with _ | _ | i <;> rcases j with _ | _ | j <;>
      simp [readingFields] at hdeclared hother <;> subst_vars <;> simp_all

def sampleReader : RowReader Sample Unit where
  parse _ := .ok ()
  migrate _ _ row := .ok row
  decode _ _ := .error "stored row does not match its data schema"

def newStore : NativeStore Sample := ⟨∅, ∅, none, false⟩

def register : Operation Sample := .register readingSchema fun _ => .ok ()

def insert (value : Sample) : Operation Sample :=
  .change "Reading" (.write value false) fun _ => .ok ()

theorem eq_reading_of_lookup {store : NativeStore Sample} {name : String} {table : Table Sample}
    (hkeys : store.tables.keys = ["Reading"]) (h : store.tables.lookup name = some table) :
    name = "Reading" := by
  have hmem : name ∈ store.tables.keys := AList.lookup_isSome.mp (by rw [h]; rfl)
  rw [hkeys] at hmem
  exact List.mem_singleton.mp hmem

end Disp.Data

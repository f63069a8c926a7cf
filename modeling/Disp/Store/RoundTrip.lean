import Disp.Store.Pages

/-!
# Reading back what was written

The decoder returns the tables of every snapshot the encoder accepts, in name order,
exactly when no table has more constraints than the decoder admits: the encoder has no
such limit.
-/

namespace Disp.Store

open Library.Codec List

variable {value : Nat} {context : String} {bytes : Bytes} {limit : Nat} {names : List String}
  {table : Table} {done : List Table} {payload : Bytes} {snapshot : Snapshot} {index count : Nat}
  {allowedFlags : UInt8} {supportsConstraints : Bool}

/-! ## Primitive fields -/

theorem pushU32_eq_ok (h : pushU32 value context = .ok bytes) :
    value < 2 ^ 32 ∧ bytes = le 4 value := by
  obtain ⟨hval, h⟩ := ensure_bind_ok h
  cases h
  exact ⟨of_decide_eq_true hval, rfl⟩

theorem pushU64_eq_ok (h : pushU64 value context = .ok bytes) :
    value < 2 ^ 64 ∧ bytes = le 8 value := by
  obtain ⟨hval, h⟩ := ensure_bind_ok h
  cases h
  exact ⟨of_decide_eq_true hval, rfl⟩

theorem Reader.reads_u8 (byte : UInt8) (context : String) : Reads (Reader.u8 context) [byte] byte :=
  Reads.map (reads_take (show [byte].length = 1 from rfl) _) fun bytes => bytes.headD 0

theorem Reader.reads_u32 (h : pushU32 value context = .ok bytes) (context' : String) :
    Reads (Reader.u32 context') bytes value := by
  obtain ⟨hval, rfl⟩ := pushU32_eq_ok h
  have hread : Reads (Reader.u32 context') (le 4 value) (ofLe (le 4 value)) :=
    (reads_take (length_le 4 value) _).map ofLe
  rwa [ofLe_le hval] at hread

theorem Reader.reads_u64 (h : pushU64 value context = .ok bytes) (context' : String) :
    Reads (Reader.u64 context') bytes value := by
  obtain ⟨hval, rfl⟩ := pushU64_eq_ok h
  have hread : Reads (Reader.u64 context') (le 8 value) (ofLe (le 8 value)) :=
    (reads_take (length_le 8 value) _).map ofLe
  rwa [ofLe_le hval] at hread

theorem Reader.reads_data {value : Bytes} (h : pushBytes value limit context = .ok bytes)
    (context' : String) : Reads (Reader.data limit context') bytes value := by
  obtain ⟨hlimit, h⟩ := ensure_bind_ok h
  obtain ⟨length, hlen, h⟩ := bind_eq_ok h
  cases h
  exact (Reader.reads_u32 hlen context').bind (.require_bind hlimit (reads_take rfl _))

theorem fromUTF8_utf8 (text : String) : String.fromUTF8? ⟨(utf8 text).toArray⟩ = some text := by
  change String.fromUTF8? text.toByteArray = some text
  unfold String.fromUTF8?
  rw [dif_pos text.isValidUTF8]
  rfl

theorem Reader.reads_text {value : String} (h : pushBytes (utf8 value) limit context = .ok bytes)
    (context' : String) : Reads (Reader.text limit context') bytes value := by
  refine (Reader.reads_data h context').bind_nil ?_
  unfold Reader.fromUtf8
  rw [fromUTF8_utf8]
  exact reads_pure value

/-! ## Fields, constraints and rows -/

theorem Field.flags_bits (field : Field) :
    (field.flags &&& ~~~0b1111 == 0) = true ∧ (field.flags &&& 0b01 != 0) = field.optional ∧
      (field.flags &&& 0b10 != 0) = field.primary ∧
      (field.flags &&& 0b100 != 0) = field.unique ∧
      (field.flags &&& 0b1000 != 0) = field.indexed := by
  obtain ⟨name, storage, optional, primary, unique, indexed⟩ := field
  unfold Field.flags
  dsimp only
  revert optional primary unique indexed
  decide

theorem Constraint.flags_bits (constraint : Constraint) :
    (constraint.unique.toUInt8 &&& ~~~1 == 0) = true ∧
      (constraint.unique.toUInt8 &&& 1 != 0) = constraint.unique := by
  cases constraint.unique <;> decide

/-- The format has every flag of the field. -/
def Field.Known (allowedFlags : UInt8) (field : Field) : Prop :=
  (field.flags &&& ~~~allowedFlags == 0) = true

instance (allowedFlags : UInt8) (field : Field) : Decidable (field.Known allowedFlags) :=
  inferInstanceAs (Decidable (_ = _))

/-- A field is read back if the format has its flags, and refused otherwise. -/
theorem yields_field {done : List Field} {field : Field} (h : encodeField done field = .ok bytes) :
    (field.Known allowedFlags → Reads (decodeField allowedFlags done) bytes field) ∧
      (¬ field.Known allowedFlags → Fails (decodeField allowedFlags done) bytes) := by
  obtain ⟨hnew, h⟩ := ensure_bind_ok h
  obtain ⟨name, hname, h⟩ := bind_eq_ok h
  obtain ⟨storage, hstorage, h⟩ := bind_eq_ok h
  cases h
  obtain ⟨-, hoptional, hprimary, huniq, hindexed⟩ := field.flags_bits
  constructor
  · intro hknown
    refine (Reader.reads_text hname _).bind (.require_bind hnew ?_)
    refine (Reader.reads_text hstorage _).bind ?_
    refine (Reader.reads_u8 field.flags _).bind_nil (.require_bind hknown ?_)
    rw [hoptional, hprimary, huniq, hindexed]
    exact reads_pure field
  · intro hunknown
    refine (Reader.reads_text hname _).bind (.require_bind hnew ?_)
    refine (Reader.reads_text hstorage _).bind ?_
    refine (Reader.reads_u8 field.flags _).bind_nil ?_
    exact (fails_require (by simpa [Field.Known] using hunknown) _).bind _ []

theorem reads_constraintField {done : List String} {field : String}
    (h : encodeConstraintField names done field = .ok bytes) :
    Reads (decodeConstraintField names done) bytes field := by
  obtain ⟨hvalid, h⟩ := ensure_bind_ok h
  exact (Reader.reads_text h _).bind_nil (.require_bind hvalid (reads_pure field))

theorem reads_constraint {done : List Constraint} {constraint : Constraint}
    (h : encodeConstraint names done constraint = .ok bytes) :
    Reads (decodeConstraint names done) bytes constraint := by
  obtain ⟨name, hname, h⟩ := bind_eq_ok h
  obtain ⟨hnew, h⟩ := ensure_bind_ok h
  obtain ⟨hcount, h⟩ := ensure_bind_ok h
  obtain ⟨count, hcountBytes, h⟩ := bind_eq_ok h
  obtain ⟨fields, hfields, h⟩ := bind_eq_ok h
  cases h
  obtain ⟨hknown, huniq⟩ := constraint.flags_bits
  refine (Reader.reads_text hname _).bind (.require_bind (by rwa [Bool.and_comm]) ?_)
  refine (Reader.reads_u8 constraint.unique.toUInt8 _).bind (.require_bind hknown ?_)
  refine (Reader.reads_u32 hcountBytes _).bind (.require_bind hcount ?_)
  have hread := reads_repeated hfields fun _ _ _ _ => reads_constraintField
  refine hread.bind_nil ?_
  rw [huniq]
  exact reads_pure constraint

theorem reads_row {done : List Bytes} {row : Bytes} (h : encodeRow done row = .ok bytes) :
    Reads (decodeRow done) bytes row :=
  Reader.reads_data h _

/-! ## Tables -/

theorem reads_constraints (h : encodeConstraints supportsConstraints table = .ok bytes)
    (hcount : table.constraints.length ≤ maxFields) :
    Reads (decodeConstraints supportsConstraints table.fields) bytes table.constraints := by
  cases supportsConstraints with
  | false =>
    obtain ⟨hnone, h⟩ := ensure_bind_ok h
    cases h
    rw [List.isEmpty_iff.mp hnone]
    exact reads_pure []
  | true =>
    obtain ⟨count, hcountBytes, h⟩ := bind_eq_ok h
    obtain ⟨constraints, hconstrs, h⟩ := bind_eq_ok h
    cases h
    refine (Reader.reads_u32 hcountBytes _).bind (.require_bind (decide_eq_true hcount) ?_)
    exact reads_repeated hconstrs fun _ _ _ _ => reads_constraint

theorem fails_constraints (h : encodeConstraints supportsConstraints table = .ok bytes)
    (hcount : ¬ table.constraints.length ≤ maxFields) :
    Fails (decodeConstraints supportsConstraints table.fields) bytes := by
  cases supportsConstraints with
  | false =>
    obtain ⟨hnone, -⟩ := ensure_bind_ok h
    rw [List.isEmpty_iff.mp hnone] at hcount
    exact absurd (Nat.zero_le _) hcount
  | true =>
    obtain ⟨count, hcountBytes, h⟩ := bind_eq_ok h
    obtain ⟨constraints, hconstrs, h⟩ := bind_eq_ok h
    cases h
    refine (Reader.reads_u32 hcountBytes _).bind ?_
    exact (fails_require (decide_eq_false hcount) _).bind _ constraints

theorem length_bne_zero (fields : List Field) : (fields.length != 0) = !fields.isEmpty := by
  cases fields <;> rfl

/-- The decoder of the format admits the table: its flags and the number of its constraints. -/
def Table.Known (allowedFlags : UInt8) (table : Table) : Prop :=
  (∀ field ∈ table.fields, field.Known allowedFlags) ∧ table.constraints.length ≤ maxFields

theorem yields_table (h : encodeTable supportsConstraints done table = .ok bytes) :
    (table.Known allowedFlags →
        Reads (decodeTable allowedFlags supportsConstraints done) bytes table) ∧
      (¬ table.Known allowedFlags →
        Fails (decodeTable allowedFlags supportsConstraints done) bytes) := by
  obtain ⟨hnew, h⟩ := ensure_bind_ok h
  obtain ⟨name, hname, h⟩ := bind_eq_ok h
  obtain ⟨hfieldCount, h⟩ := ensure_bind_ok h
  obtain ⟨fieldCount, hfieldBytes, h⟩ := bind_eq_ok h
  obtain ⟨fields, hfields, h⟩ := bind_eq_ok h
  obtain ⟨hprimary, h⟩ := ensure_bind_ok h
  obtain ⟨hrowCount, h⟩ := ensure_bind_ok h
  obtain ⟨constraints, hconstrs, h⟩ := bind_eq_ok h
  obtain ⟨rowCount, hrowBytes, h⟩ := bind_eq_ok h
  obtain ⟨rows, hrows, h⟩ := bind_eq_ok h
  cases h
  rw [← length_bne_zero] at hfieldCount
  have hrowsRead := reads_repeated hrows fun _ _ _ _ => reads_row
  by_cases hknown : ∀ field ∈ table.fields, field.Known allowedFlags
  · have hfieldsRead := reads_repeated hfields fun done field hfield bytes hbytes =>
      (yields_field hbytes).1 (hknown field hfield)
    constructor
    · rintro ⟨-, hcount⟩
      refine (Reader.reads_text hname _).bind (.require_bind hnew ?_)
      refine (Reader.reads_u32 hfieldBytes _).bind (.require_bind hfieldCount ?_)
      refine hfieldsRead.bind (.require_bind hprimary ?_)
      refine (reads_constraints hconstrs hcount).bind ?_
      refine (Reader.reads_u64 hrowBytes _).bind (.require_bind hrowCount ?_)
      exact hrowsRead.map _
    · intro hnot
      refine (Reader.reads_text hname _).bind (.require_bind hnew ?_)
      refine (Reader.reads_u32 hfieldBytes _).bind (.require_bind hfieldCount ?_)
      refine hfieldsRead.bind (.require_bind hprimary ?_)
      exact (fails_constraints hconstrs fun hcount => hnot ⟨hknown, hcount⟩).bind _ _
  · refine ⟨fun h => absurd h.1 hknown, fun _ => ?_⟩
    refine (Reader.reads_text hname _).bind (.require_bind hnew ?_)
    refine (Reader.reads_u32 hfieldBytes _).bind (.require_bind hfieldCount ?_)
    refine Fails.bind ?_ _ _
    exact fails_repeated hfields (fun _ _ _ h => (yields_field h).1)
      (fun _ _ _ h => (yields_field h).2) (by simpa using hknown)

theorem encodeTables_eq_ok {tables : List Table} {result : Bytes}
    (h : encodeTables supportsConstraints done payload tables = .ok result) :
    ∃ bytes, encodeAll (encodeTable supportsConstraints) done tables = .ok bytes ∧
      result = payload ++ bytes := by
  induction tables generalizing done payload with
  | nil =>
    cases h
    exact ⟨[], rfl, (append_nil _).symm⟩
  | cons table tables ih =>
    obtain ⟨first, hfirst, h⟩ := bind_eq_ok h
    obtain ⟨_, h⟩ := ensure_bind_ok h
    obtain ⟨rest, hrest, hres⟩ := ih h
    refine ⟨first ++ rest, ?_, by rw [hres, append_assoc]⟩
    rw [encodeAll, hfirst]
    rw [hrest]
    rfl

theorem yields_tables
    (h : encodePayloadWithConstraints snapshot supportsConstraints = .ok payload) :
    ((∀ table ∈ snapshot.tables, table.Known allowedFlags) →
        Reads (decodeTables allowedFlags supportsConstraints) payload
          (inNameOrder snapshot.tables)) ∧
      ((∃ table ∈ snapshot.tables, ¬ table.Known allowedFlags) →
        Fails (decodeTables allowedFlags supportsConstraints) payload) := by
  obtain ⟨hcount, h⟩ := ensure_bind_ok h
  obtain ⟨count, hcountBytes, h⟩ := bind_eq_ok h
  obtain ⟨bytes, hbytes, rfl⟩ := encodeTables_eq_ok h
  have hmem (table : Table) : table ∈ inNameOrder snapshot.tables ↔ table ∈ snapshot.tables :=
    mem_insertionSort _
  have hlen : (inNameOrder snapshot.tables).length ≤ maxTables := by
    rw [inNameOrder, length_insertionSort]
    exact of_decide_eq_true hcount
  constructor
  · intro hall
    refine (Reader.reads_u32 hcountBytes _).bind (.require_bind (decide_eq_true hlen) ?_)
    exact reads_repeated hbytes fun done table htable bytes hbytes =>
      (yields_table hbytes).1 (hall table ((hmem table).mp htable))
  · rintro ⟨table, htable, hunknown⟩
    refine (Reader.reads_u32 hcountBytes _).bind (.require_bind (decide_eq_true hlen) ?_)
    exact fails_repeated hbytes (fun _ _ _ hbytes => (yields_table hbytes).1)
      (fun _ _ _ hbytes => (yields_table hbytes).2) ⟨table, (hmem table).mpr htable, hunknown⟩

theorem decodePayload_encoded
    (h : encodePayloadWithConstraints snapshot supportsConstraints = .ok payload) :
    ((∀ table ∈ snapshot.tables, table.Known allowedFlags) →
        decodePayload payload allowedFlags supportsConstraints =
          .ok ⟨inNameOrder snapshot.tables⟩) ∧
      ((∃ table ∈ snapshot.tables, ¬ table.Known allowedFlags) →
        ∃ error, decodePayload payload allowedFlags supportsConstraints = .error error) := by
  obtain ⟨hreads, hfails⟩ := yields_tables h
  constructor
  · intro hall
    have hread := hreads hall []
    rw [append_nil] at hread
    rw [decodePayload, hread]
    rfl
  · intro hsome
    obtain ⟨error, herror⟩ := hfails hsome []
    rw [append_nil] at herror
    exact ⟨error, by rw [decodePayload, herror]; rfl⟩

/-! ## Files -/

/-- Every table has no more constraints than the decoder admits. -/
def Snapshot.Admitted (snapshot : Snapshot) : Prop :=
  ∀ table ∈ snapshot.tables, table.constraints.length ≤ maxFields

instance (snapshot : Snapshot) : Decidable snapshot.Admitted :=
  inferInstanceAs (Decidable (∀ table ∈ snapshot.tables, _))

theorem decode_encoded {generation : UInt64} (h : encodePages snapshot generation = .ok bytes) :
    (snapshot.Admitted → decode bytes = .ok ⟨inNameOrder snapshot.tables⟩) ∧
      (¬ snapshot.Admitted → ∃ error, decode bytes = .error error) := by
  obtain ⟨payload, hpay, hcount, rfl⟩ := encodePagesVersion_eq_ok h
  rw [decode_pagesOf .current hcount]
  obtain ⟨hreads, hfails⟩ : (_ → decodePayload payload 0b1111 true = _) ∧ _ :=
    decodePayload_encoded hpay
  have hknown (table : Table) : table.Known 0b1111 ↔ table.constraints.length ≤ maxFields :=
    ⟨And.right, fun h => ⟨fun field _ => field.flags_bits.1, h⟩⟩
  simp only [hknown] at hreads hfails
  exact ⟨hreads, fun hnot => hfails (by simpa [Snapshot.Admitted] using hnot)⟩

instance : Std.Total Table.NameLe := ⟨fun _ _ => List.le_total _ _⟩

instance : IsTrans Table Table.NameLe := ⟨fun _ _ _ => List.le_trans⟩

/-- An encoded snapshot is decoded to its tables in name order, each one unchanged,
exactly when no table has more than 4096 constraints. -/
theorem decode_encodePages_iff {snapshot : Snapshot} {generation : UInt64} {bytes : Bytes}
    (h : encodePages snapshot generation = .ok bytes) :
    (∃ tables, decode bytes = .ok ⟨tables⟩ ∧ tables.Perm snapshot.tables ∧
        tables.Pairwise Table.NameLe) ↔ snapshot.Admitted := by
  obtain ⟨hreads, hfails⟩ := decode_encoded h
  constructor
  · rintro ⟨tables, hdec, _⟩
    by_contra hnot
    obtain ⟨error, herror⟩ := hfails hnot
    rw [herror] at hdec
    cases hdec
  · intro hadm
    exact ⟨inNameOrder snapshot.tables, hreads hadm,
      perm_insertionSort _ _, pairwise_insertionSort _ _⟩

theorem eq_ok_of_isOk {α : Type} {result : Except Invalid α} (h : result.isOk = true) :
    ∃ value, result = .ok value := by
  cases result with
  | ok value => exact ⟨value, rfl⟩
  | error error => cases h

/-- Two tables out of order, one with a composite constraint and a row. -/
def sample : Snapshot where
  tables := [
    { name := "Task"
      fields := [⟨"id", "Int", false, true, false, false⟩,
        ⟨"title", "Text", true, false, true, false⟩]
      constraints := [⟨"by_title", true, ["title", "id"]⟩]
      rows := [[1, 2, 3], []] },
    { name := "Owner"
      fields := [⟨"id", "Int", false, true, false, true⟩]
      constraints := []
      rows := [] }]

theorem sample_read_back :
    ∃ bytes tables, encodePages sample 7 = .ok bytes ∧ decode bytes = .ok ⟨tables⟩ ∧
      tables.Perm sample.tables ∧ tables.Pairwise Table.NameLe := by
  have hok : (encodePages sample 7).isOk = true := by decide +kernel
  obtain ⟨bytes, hbytes⟩ := eq_ok_of_isOk hok
  obtain ⟨tables, htables⟩ := (decode_encodePages_iff hbytes).mpr (by decide +kernel)
  exact ⟨bytes, tables, hbytes, htables⟩

/-! ## A table with too many constraints -/

def constraintName (index : Nat) : String := String.singleton (Char.ofNat (0x4e00 + index))

theorem toNat_ofNat_name (h : index < 4097) :
    (Char.ofNat (0x4e00 + index)).toNat = 0x4e00 + index := by
  rw [Char.ofNat, dif_pos (Or.inl (by omega))]
  rfl

theorem constraintName_injective {left right : Nat} (hleft : left < 4097)
    (hright : right < 4097) (h : constraintName left = constraintName right) : left = right := by
  have hnat := congrArg Char.toNat (String.singleton_inj.mp h)
  rw [toNat_ofNat_name hleft, toNat_ofNat_name hright] at hnat
  omega

theorem length_constraintName (index : Nat) : (utf8 (constraintName index)).length ≤ 4 := by
  have hsize : (utf8 (constraintName index)).length = (constraintName index).utf8ByteSize := rfl
  rw [hsize, constraintName, String.utf8ByteSize_singleton]
  exact Char.utf8Size_le_four _

def crowdedConstraint (index : Nat) : Constraint := ⟨constraintName index, false, ["a", "b"]⟩

def crowdedTable (count : Nat) : Table where
  name := "t"
  fields := [⟨"a", "Int", false, true, false, false⟩, ⟨"b", "Int", false, false, false, false⟩]
  constraints := (List.range count).map crowdedConstraint
  rows := []

theorem pushBytes_ok {value : Bytes} (h : value.length ≤ limit) (hlimit : limit < 2 ^ 32)
    (context : String) : pushBytes value limit context = .ok (le 4 value.length ++ value) := by
  rw [pushBytes, ensure_pass (decide_eq_true h), pushU32,
    ensure_pass (decide_eq_true (h.trans_lt hlimit))]
  rfl

theorem constraintName_not_field (h : index < 4097) :
    ["a", "b"].contains (constraintName index) = false := by
  have hne (char : Char) (hchar : char.toNat < 0x4e00) :
      constraintName index ≠ String.singleton char := by
    intro heq
    have hnat := congrArg Char.toNat (String.singleton_inj.mp heq)
    rw [toNat_ofNat_name h] at hnat
    omega
  rw [contains_eq_mem, decide_eq_false_iff_not, mem_cons, mem_singleton]
  exact not_or.mpr ⟨hne 'a' (by decide), hne 'b' (by decide)⟩

theorem encodeConstraint_crowded {before : List Nat} (h : index < 4097)
    (hbefore : ∀ other ∈ before, other < 4097 ∧ other ≠ index) :
    ∃ bytes, encodeConstraint ["a", "b"] (before.map crowdedConstraint)
        (crowdedConstraint index) = .ok bytes ∧ bytes.length ≤ 32 := by
  have hlen := length_constraintName index
  have hname := pushBytes_ok (hlen.trans (by decide : 4 ≤ maxNameBytes)) (by decide)
  have hnew : ((before.map crowdedConstraint).map Constraint.name).contains
      (constraintName index) = false := by
    rw [map_map, contains_eq_mem, decide_eq_false_iff_not]
    intro hmem
    obtain ⟨other, hother, heq⟩ := mem_map.mp hmem
    obtain ⟨hlt, hne⟩ := hbefore other hother
    exact hne (constraintName_injective hlt h heq)
  have hencode : encodeConstraint ["a", "b"] (before.map crowdedConstraint)
      (crowdedConstraint index) = .ok (le 4 (utf8 (constraintName index)).length ++
        utf8 (constraintName index) ++ ([0] ++ (le 4 2 ++ [1, 0, 0, 0, 97, 1, 0, 0, 0, 98]))) := by
    rw [encodeConstraint, crowdedConstraint]
    rw [hname, hnew, constraintName_not_field h]
    rfl
  refine ⟨_, hencode, ?_⟩
  simp only [length_append, length_le, length_cons, length_nil]
  omega

theorem encodeConstraints_crowded (h : count ≤ 4097) :
    ∃ bytes, encodeConstraints true (crowdedTable count) = .ok bytes ∧
      bytes.length ≤ 4 + count * 32 := by
  have hencode := @encodeAll_ok Invalid _ (encodeConstraint ["a", "b"]) 32 []
    ((List.range count).map crowdedConstraint) ?_
  · rw [length_map, length_range] at hencode
    obtain ⟨bytes, hbytes, hlen⟩ := hencode
    refine ⟨le 4 count ++ bytes, ?_, ?_⟩
    · have hcount : pushU32 (crowdedTable count).constraints.length "constraint count" =
          .ok (le 4 count) := by
        rw [crowdedTable, length_map, length_range, pushU32,
          ensure_pass (decide_eq_true (by omega))]
        rfl
      rw [encodeConstraints, hcount]
      change (encodeAll (encodeConstraint ["a", "b"]) [] _ >>= fun _ => _) = _
      rw [crowdedTable, hbytes]
      rfl
    · rw [length_append, length_le]
      omega
  · intro before constraint after heq
    obtain ⟨indices, rest, hrange, rfl, hrest⟩ := map_eq_append_iff.mp heq
    obtain ⟨index, rest, rfl, rfl, rfl⟩ := map_eq_cons_iff.mp hrest
    have hnodup := hrange ▸ nodup_range (n := count)
    have hlt (other : Nat) (hmem : other ∈ indices ++ index :: rest) : other < 4097 :=
      (mem_range.mp (hrange ▸ hmem)).trans_le h
    refine encodeConstraint_crowded (hlt index (by simp)) fun other hother => ⟨hlt other ?_, ?_⟩
    · exact mem_append_left _ hother
    · rintro rfl
      exact (disjoint_of_nodup_append hnodup) hother mem_cons_self

theorem encodeTable_crowded (h : count ≤ 4097) :
    ∃ bytes, encodeTable true [] (crowdedTable count) = .ok bytes ∧
      bytes.length ≤ 100 + count * 32 := by
  obtain ⟨constraints, hconstrs, hlen⟩ := encodeConstraints_crowded h
  obtain ⟨fields, hfields, hfieldsLength⟩ : ∃ bytes,
      encodeAll encodeField [] (crowdedTable count).fields = .ok bytes ∧ bytes.length = 26 := by
    refine ⟨[1, 0, 0, 0, 97, 3, 0, 0, 0, 73, 110, 116, 2, 1, 0, 0, 0, 98, 3, 0, 0, 0, 73, 110,
      116, 0], ?_, rfl⟩
    dsimp only [crowdedTable]
    decide +kernel
  have hencode : encodeTable true [] (crowdedTable count) =
      .ok ([1, 0, 0, 0, 116] ++ (le 4 2 ++ (fields ++ (constraints ++ (le 8 0 ++ []))))) := by
    rw [encodeTable, hfields, hconstrs]
    dsimp only [crowdedTable]
    rfl
  refine ⟨_, hencode, ?_⟩
  simp only [length_append, length_le, length_cons, length_nil]
  omega

theorem encodePages_crowded (h : count ≤ 4097) (generation : UInt64) :
    ∃ bytes, encodePages ⟨[crowdedTable count]⟩ generation = .ok bytes := by
  obtain ⟨table, htable, hlen⟩ := encodeTable_crowded h
  have hsize : (le 4 1 ++ table).length ≤ 140000 := by
    rw [length_append, length_le]
    omega
  have htables : encodeTables true [] (le 4 1) [crowdedTable count] = .ok (le 4 1 ++ table) := by
    rw [encodeTables, htable]
    change (ensure _ _ >>= fun _ => encodeTables true _ (le 4 1 ++ table) []) = _
    rw [ensure_pass (decide_eq_true (hsize.trans (by decide)))]
    rfl
  have hpay : encodePayloadWithConstraints ⟨[crowdedTable count]⟩ true =
      .ok (le 4 1 ++ table) := htables
  have hcount : dataPageCount (le 4 1 ++ table) + 1 ≤ maxPages := by
    have hpart : pagePayloadSize = 4064 := rfl
    have hpages : maxPages = 16384 := rfl
    rw [dataPageCount, hpart]
    omega
  refine ⟨pagesOf version generation (le 4 1 ++ table), ?_⟩
  rw [encodePages, encodePagesVersion, hpay]
  exact ensure_pass (decide_eq_true hcount) _ _

theorem crowded_not_admitted (h : maxFields < count) :
    ¬ (⟨[crowdedTable count]⟩ : Snapshot).Admitted := by
  intro hadm
  have hlen := hadm (crowdedTable count) (mem_singleton_self _)
  rw [crowdedTable, length_map, length_range] at hlen
  omega

/-- A table with 4097 constraints is encoded, and the result cannot be decoded. -/
theorem crowded_not_read_back :
    ∃ bytes error, encodePages ⟨[crowdedTable 4097]⟩ 1 = .ok bytes ∧
      decode bytes = .error error := by
  obtain ⟨bytes, hbytes⟩ := encodePages_crowded le_rfl 1
  obtain ⟨error, herror⟩ := (decode_encoded hbytes).2 (crowded_not_admitted (by decide))
  exact ⟨bytes, error, hbytes, herror⟩

end Disp.Store

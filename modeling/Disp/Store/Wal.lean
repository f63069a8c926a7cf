import Disp.Store.RoundTrip

/-!
# The write-ahead log

A commit logs the pages that differ between the old and the new file.  Replaying the log
over any file that agrees with the old one outside the logged pages gives the new file.
-/

namespace Disp.Store

open Library.Codec List

variable {left right bytes : Bytes} {record : Nat × Bytes} {records : List (Nat × Bytes)}
  {old new : Bytes} {generation : UInt64}

/-! ## Writing the log -/

/-- The bytes of `DISPWAL\n`. -/
def walMagic : Bytes := [0x44, 0x49, 0x53, 0x50, 0x57, 0x41, 0x4c, 0x0a]

def walHeaderSize : Nat := 64
def walRecordSize : Nat := 8 + pageSize
def maxWalBytes : Nat := walHeaderSize + maxPages * walRecordSize

def pageOf (bytes : Bytes) (page : Nat) : Option Bytes :=
  if (page + 1) * pageSize ≤ bytes.length then some (slice bytes (page * pageSize) pageSize)
  else none

def walRecords (old new : Bytes) : List (Nat × Bytes) :=
  (List.range (new.length / pageSize)).filterMap fun page =>
    let bytes := slice new (page * pageSize) pageSize
    if pageOf old page = some bytes then none else some (page, bytes)

def recordBytes (record : Nat × Bytes) : Bytes := le 8 record.1 ++ record.2

def walFields (generation : UInt64) (pageCount : Nat) (records : List (Nat × Bytes)) : Bytes :=
  walMagic ++ (le 4 1 ++ (le 4 pageSize ++ (le 8 generation.toNat ++ (le 8 pageCount ++
    (le 8 records.length ++ (le 8 (fnv1a (records.flatMap recordBytes)).toNat ++ le 8 0))))))

def walBytes (generation : UInt64) (pageCount : Nat) (records : List (Nat × Bytes)) : Bytes :=
  walFields generation pageCount records ++
    (le 8 (fnv1a (walFields generation pageCount records)).toNat ++ records.flatMap recordBytes)

def encodeWal (old new : Bytes) (generation : UInt64) : Except Invalid Bytes := do
  let records := walRecords old new
  ensure (decide (walHeaderSize + records.length * walRecordSize ≤ maxWalBytes))
    "DISP Data write-ahead log exceeds its storage limit"
  return walBytes generation (new.length / pageSize) records

/-! ## Reading the log -/

structure Wal where
  pageCount : Nat
  generation : Nat
  records : List (Nat × Bytes)
deriving DecidableEq, Repr

def Wal.pages (wal : Wal) : List Nat := wal.records.map Prod.fst

def Wal.size (wal : Wal) : Nat := wal.pageCount * pageSize

def readRecord (bytes : Bytes) (pageCount : Nat) (records : List (Nat × Bytes)) (record : Nat) :
    Except Invalid (List (Nat × Bytes)) := do
  let start := walHeaderSize + record * walRecordSize
  let page := readU64 bytes start
  ensure (decide (page < pageCount) && !(records.map Prod.fst).contains page)
    "DISP Data WAL contains an invalid page identity"
  return records ++ [(page, slice bytes (start + 8) pageSize)]

/-- The checks that a log passes before any file is read. -/
def readWal (bytes : Bytes) : Except Invalid Wal := do
  ensure (decide (walHeaderSize ≤ bytes.length) && decide (bytes.length ≤ maxWalBytes))
    "DISP Data write-ahead log header is truncated"
  ensure (slice bytes 0 8 == walMagic && readU32 bytes 8 == 1 && readU32 bytes 12 == pageSize &&
      readU64 bytes 48 == 0 && (fnv1a (slice bytes 0 56)).toNat == readU64 bytes 56)
    "DISP Data write-ahead log header is invalid"
  let pageCount := readU64 bytes 24
  let recordCount := readU64 bytes 32
  let expectedLength := walHeaderSize + min (recordCount * walRecordSize) (2 ^ 64 - 1)
  ensure (decide (expectedLength < 2 ^ 64)) "DISP Data WAL length overflow"
  ensure (decide (2 ≤ pageCount) && decide (pageCount ≤ maxPages) &&
      expectedLength == bytes.length &&
      (fnv1a (bytes.drop walHeaderSize)).toNat == readU64 bytes 40)
    "DISP Data write-ahead log is inconsistent"
  let records ← (List.range recordCount).foldlM (readRecord bytes pageCount) []
  ensure ((records.map Prod.fst).contains 0) "DISP Data WAL does not contain its commit page"
  return ⟨pageCount, readU64 bytes 16, records⟩

/-! ## Replaying the log -/

variable {wal : Wal}

def resize (length : Nat) (bytes : Bytes) : Bytes :=
  (bytes ++ zeros (length - bytes.length)).take length

def overlay (bytes : Bytes) (record : Nat × Bytes) : Bytes :=
  bytes.take (record.1 * pageSize) ++ (record.2 ++ bytes.drop ((record.1 + 1) * pageSize))

def Wal.committed (wal : Wal) (current : Bytes) : Bytes :=
  wal.records.foldl overlay (resize wal.size current)

def currentGeneration (bytes : Bytes) : Nat :=
  if pageSize ≤ bytes.length ∧ slice bytes 0 8 = magic ∧ readU32 bytes 8 = version then
    readU64 bytes 16
  else 0

/-- The checks of the committed image. -/
def Wal.check (wal : Wal) (image : Bytes) : Except Invalid Snapshot := do
  ensure (currentGeneration image == wal.generation)
    "DISP Data WAL generation does not match its commit page"
  match decode image with
  | .ok snapshot => .ok snapshot
  | .error error =>
    .error ⟨s!"DISP Data WAL committed image is invalid: {error.message}"⟩

/-! ## Files that differ on some pages only -/

@[simp] theorem length_resize (length : Nat) (bytes : Bytes) :
    (resize length bytes).length = length := by
  rw [resize, length_take, length_append, length_zeros]
  omega

theorem getElem?_resize {length index : Nat} (h : index < length) (bytes : Bytes) :
    (resize length bytes)[index]? = some (bytes.getD index 0) := by
  rw [resize, List.getElem?_take_of_lt h, getD_eq_getElem?_getD]
  rcases Nat.lt_or_ge index bytes.length with hlt | hge
  · rw [List.getElem?_append_left hlt, List.getElem?_eq_getElem hlt]
    rfl
  · rw [List.getElem?_append_right hge, List.getElem?_eq_none hge, zeros,
      List.getElem?_replicate_of_lt (by omega)]
    rfl

theorem resize_self (bytes : Bytes) : resize bytes.length bytes = bytes := by
  rw [resize, take_left]

structure AgreeOutside (pages : List Nat) (left right : Bytes) : Prop where
  length : left.length = right.length
  bytes : ∀ index, index / pageSize ∉ pages → left[index]? = right[index]?

theorem AgreeOutside.eq (h : AgreeOutside [] left right) : left = right :=
  ext_getElem? fun index => h.bytes index not_mem_nil

/-- A record fits a file of this length. -/
structure Fits (length : Nat) (record : Nat × Bytes) : Prop where
  data : record.2.length = pageSize
  within : (record.1 + 1) * pageSize ≤ length

theorem length_overlay (h : Fits bytes.length record) :
    (overlay bytes record).length = bytes.length := by
  have hwithin := h.within
  rw [overlay, length_append, length_append, length_take, length_drop, h.data]
  rw [Nat.succ_mul] at *
  omega

theorem getElem?_overlay (h : Fits bytes.length record) (index : Nat) :
    (overlay bytes record)[index]? =
      if index / pageSize = record.1 then record.2[index - record.1 * pageSize]?
      else bytes[index]? := by
  have hwithin := h.within
  have hdata := h.data
  have hbefore : (bytes.take (record.1 * pageSize)).length = record.1 * pageSize := by
    rw [length_take, Nat.succ_mul] at *
    omega
  unfold overlay
  unfold pageSize at *
  rcases Nat.lt_or_ge index (record.1 * 4096) with hlt | hge
  · rw [List.getElem?_append_left (by omega), List.getElem?_take_of_lt hlt, if_neg (by omega)]
  · rw [List.getElem?_append_right (by omega), hbefore]
    split_ifs with hpage
    · rw [List.getElem?_append_left (by omega)]
    · rw [List.getElem?_append_right (by omega), List.getElem?_drop, hdata]
      have hindex : (record.1 + 1) * 4096 + (index - record.1 * 4096 - 4096) = index := by omega
      rw [hindex]

theorem AgreeOutside.overlay {record : Nat × Bytes} {pages : List Nat} {left right : Bytes}
    (h : AgreeOutside (record.1 :: pages) left right) (hfits : Fits left.length record) :
    AgreeOutside pages (overlay left record) (overlay right record) := by
  have hfits' : Fits right.length record := h.length ▸ hfits
  refine ⟨by rw [length_overlay hfits, length_overlay hfits', h.length], fun index hpage => ?_⟩
  rw [getElem?_overlay hfits, getElem?_overlay hfits']
  split_ifs with heq
  · rfl
  · exact h.bytes index (not_mem_cons_of_ne_of_not_mem heq hpage)

theorem foldl_overlay_congr (h : AgreeOutside (records.map Prod.fst) left right)
    (hfits : ∀ record ∈ records, Fits left.length record) :
    records.foldl overlay left = records.foldl overlay right := by
  induction records generalizing left right with
  | nil => exact h.eq
  | cons record records ih =>
    have hfirst := hfits record mem_cons_self
    refine ih (h.overlay hfirst) fun other hmem => ?_
    rw [length_overlay hfirst]
    exact hfits other (mem_cons_of_mem _ hmem)

theorem length_foldl_overlay (hfits : ∀ record ∈ records, Fits bytes.length record) :
    (records.foldl overlay bytes).length = bytes.length := by
  induction records generalizing bytes with
  | nil => rfl
  | cons record records ih =>
    have hfirst := hfits record mem_cons_self
    rw [foldl_cons, ih, length_overlay hfirst]
    intro other hmem
    rw [length_overlay hfirst]
    exact hfits other (mem_cons_of_mem _ hmem)

/-! ## Logs of a commit -/

theorem overlay_slice (bytes : Bytes) (page : Nat) :
    overlay bytes (page, slice bytes (page * pageSize) pageSize) = bytes := by
  rw [overlay, slice, Nat.succ_mul, ← drop_drop, take_append_drop, take_append_drop]

theorem mem_walRecords :
    record ∈ walRecords old new ↔ record.1 < new.length / pageSize ∧
      record.2 = slice new (record.1 * pageSize) pageSize ∧
      pageOf old record.1 ≠ some record.2 := by
  obtain ⟨page, data⟩ := record
  unfold walRecords
  rw [mem_filterMap]
  dsimp only
  constructor
  · rintro ⟨page', hpage, h⟩
    split_ifs at h with hsame
    cases h
    exact ⟨mem_range.mp hpage, rfl, hsame⟩
  · rintro ⟨hpage, rfl, hdiffers⟩
    exact ⟨page, mem_range.mpr hpage, if_neg hdiffers⟩

theorem walRecords_fits (h : record ∈ walRecords old new) : Fits new.length record := by
  obtain ⟨hpage, hdata, _⟩ := mem_walRecords.mp h
  have hwithin : (record.1 + 1) * pageSize ≤ new.length :=
    (Nat.mul_le_mul_right pageSize hpage).trans (Nat.div_mul_le_self _ _)
  refine ⟨?_, hwithin⟩
  rw [hdata, length_slice]
  rwa [← Nat.succ_mul]

theorem foldl_walRecords_self (old new : Bytes) : (walRecords old new).foldl overlay new = new := by
  have hself : ∀ records : List (Nat × Bytes), (∀ record ∈ records,
      record ∈ walRecords old new) → records.foldl overlay new = new := by
    intro records hmem
    induction records with
    | nil => rfl
    | cons record records ih =>
      have hrec := hmem record mem_cons_self
      obtain ⟨_, hdata, _⟩ := mem_walRecords.mp hrec
      have hsame : overlay new record = new := by
        obtain ⟨page, data⟩ := record
        rw [show data = _ from hdata]
        exact overlay_slice new page
      rw [foldl_cons, hsame]
      exact ih fun other hother => hmem other (mem_cons_of_mem _ hother)
  exact hself _ fun _ h => h

/-- The old file agrees with the new one outside the logged pages. -/
theorem resize_agrees (h : pageSize ∣ new.length) :
    AgreeOutside ((walRecords old new).map Prod.fst) (resize new.length old) new := by
  refine ⟨length_resize _ _, fun index hpage => ?_⟩
  have hsize : pageSize = 4096 := rfl
  rcases Nat.lt_or_ge index new.length with hlt | hge
  · have hbelow : index / pageSize < new.length / pageSize := by
      obtain ⟨count, hcount⟩ := h
      rw [hcount] at hlt ⊢
      rw [hsize]
      rw [hsize] at hlt
      omega
    have hsame : pageOf old (index / pageSize) =
        some (slice new (index / pageSize * pageSize) pageSize) := by
      by_contra hdiffers
      exact hpage (mem_map.mpr ⟨(index / pageSize, _),
        mem_walRecords.mpr ⟨hbelow, rfl, hdiffers⟩, rfl⟩)
    unfold pageOf at hsame
    split_ifs at hsame with hwithin
    have hbytes := congrArg (·[index % pageSize]?) (Option.some.inj hsame)
    have hoffset : index % pageSize < pageSize := Nat.mod_lt _ (by decide)
    simp only [slice, List.getElem?_take_of_lt hoffset, List.getElem?_drop] at hbytes
    rw [Nat.mul_comm, Nat.div_add_mod] at hbytes
    have hold : index < old.length := by
      rw [hsize] at hwithin
      omega
    rw [getElem?_resize hlt, ← hbytes, getD_eq_getElem?_getD, List.getElem?_eq_getElem hold]
    rfl
  · rw [List.getElem?_eq_none hge, List.getElem?_eq_none (by rwa [length_resize])]

def commitWal (old new : Bytes) (generation : UInt64) : Wal :=
  ⟨new.length / pageSize, generation.toNat, walRecords old new⟩

theorem size_commitWal (h : pageSize ∣ new.length) :
    (commitWal old new generation).size = new.length :=
  Nat.div_mul_cancel h

theorem committed_commitWal (h : pageSize ∣ new.length) :
    (commitWal old new generation).committed old = new := by
  rw [Wal.committed, size_commitWal h]
  change (walRecords old new).foldl overlay (resize new.length old) = new
  rw [foldl_overlay_congr (resize_agrees h), foldl_walRecords_self]
  intro record hmem
  rw [length_resize]
  exact walRecords_fits hmem

/-! ## What a readable log satisfies -/

structure Wal.Valid (wal : Wal) : Prop where
  atLeast : 2 ≤ wal.pageCount
  atMost : wal.pageCount ≤ maxPages
  fits : ∀ record ∈ wal.records, Fits wal.size record

theorem readRecord_fits {pageCount recordCount : Nat}
    (hlen : bytes.length = walHeaderSize + recordCount * walRecordSize)
    {before after : List (Nat × Bytes)} {record : Nat} (hrec : record < recordCount)
    (hbefore : ∀ record ∈ before, Fits (pageCount * pageSize) record)
    (h : readRecord bytes pageCount before record = .ok after) :
    ∀ record ∈ after, Fits (pageCount * pageSize) record := by
  obtain ⟨hpage, h⟩ := ensure_bind_ok h
  cases h
  rw [Bool.and_eq_true, decide_eq_true_eq] at hpage
  intro other hmem
  rcases mem_append.mp hmem with hmem | hmem
  · exact hbefore other hmem
  · cases mem_singleton.mp hmem
    refine ⟨length_slice ?_, Nat.mul_le_mul_right pageSize hpage.1⟩
    have hnext : (record + 1) * walRecordSize ≤ recordCount * walRecordSize :=
      Nat.mul_le_mul_right walRecordSize hrec
    have hsize : walRecordSize = 8 + pageSize := rfl
    rw [Nat.succ_mul] at hnext
    omega

theorem readWal_length (h : readWal bytes = .ok wal) : bytes.length ≤ maxWalBytes := by
  obtain ⟨hlen, _⟩ := ensure_bind_ok h
  rw [Bool.and_eq_true, decide_eq_true_eq, decide_eq_true_eq] at hlen
  exact hlen.2

theorem readWal_valid (h : readWal bytes = .ok wal) : wal.Valid := by
  obtain ⟨_, h⟩ := ensure_bind_ok h
  obtain ⟨_, h⟩ := ensure_bind_ok h
  obtain ⟨hoverflow, h⟩ := ensure_bind_ok h
  obtain ⟨hcons, h⟩ := ensure_bind_ok h
  obtain ⟨records, hrecs, h⟩ := bind_eq_ok h
  obtain ⟨_, h⟩ := ensure_bind_ok h
  cases h
  simp only [Bool.and_eq_true, decide_eq_true_eq, beq_iff_eq] at hoverflow hcons
  obtain ⟨⟨⟨hatLeast, hatMost⟩, hlen⟩, _⟩ := hcons
  refine ⟨hatLeast, hatMost, foldlM_invariant
    (fun records => ∀ record ∈ records, Fits (readU64 bytes 24 * pageSize) record)
    (fun _ h => (not_mem_nil h).elim) ?_ hrecs⟩
  intro record hrec before after hbefore h
  refine readRecord_fits ?_ (mem_range.mp hrec) hbefore h
  have hheader : walHeaderSize = 64 := rfl
  omega

/-! ## Reading back the log of a commit -/

section

variable (generation : UInt64) (pageCount : Nat) (records : List (Nat × Bytes))

@[simp] theorem length_walFields : (walFields generation pageCount records).length = 56 := by
  simp [walFields, walMagic]

theorem walBytes_number :
    slice (walBytes generation pageCount records) 0 8 = walMagic ∧
    slice (walBytes generation pageCount records) 8 4 = le 4 1 ∧
    slice (walBytes generation pageCount records) 12 4 = le 4 pageSize ∧
    slice (walBytes generation pageCount records) 16 8 = le 8 generation.toNat ∧
    slice (walBytes generation pageCount records) 24 8 = le 8 pageCount ∧
    slice (walBytes generation pageCount records) 32 8 = le 8 records.length ∧
    slice (walBytes generation pageCount records) 40 8 =
      le 8 (fnv1a (records.flatMap recordBytes)).toNat ∧
    slice (walBytes generation pageCount records) 48 8 = le 8 0 := by
  have hmagic : walMagic.length = 8 := rfl
  rw [walBytes, walFields]
  simp [slice_append_left, slice_append_right, slice_all, hmagic]

theorem walBytes_fields :
    slice (walBytes generation pageCount records) 0 56 = walFields generation pageCount records :=
  slice_start _ _ (length_walFields generation pageCount records)

theorem walBytes_checksum :
    slice (walBytes generation pageCount records) 56 8 =
      le 8 (fnv1a (walFields generation pageCount records)).toNat := by
  rw [walBytes, slice_append_right _ (length_walFields generation pageCount records).le]
  exact slice_start _ _ (length_le 8 _)

theorem walBytes_body :
    (walBytes generation pageCount records).drop walHeaderSize = records.flatMap recordBytes := by
  rw [walBytes, ← append_assoc]
  exact drop_left' (by simp [walHeaderSize])

variable {generation pageCount records}

theorem length_recordBytes (h : record.2.length = pageSize) :
    (recordBytes record).length = walRecordSize := by
  rw [recordBytes, length_append, h]
  rfl

theorem length_walBytes (hdata : ∀ record ∈ records, record.2.length = pageSize) :
    (walBytes generation pageCount records).length =
      walHeaderSize + records.length * walRecordSize := by
  rw [walBytes, length_append, length_append,
    length_flatMap fun record hmem => length_recordBytes (hdata record hmem), ← Nat.add_assoc]
  rfl

theorem walBytes_record (generation : UInt64) (pageCount : Nat)
    (hdata : ∀ record ∈ records, record.2.length = pageSize) {index : Nat}
    (h : records[index]? = some record) :
    slice (walBytes generation pageCount records) (walHeaderSize + index * walRecordSize) 8 =
        le 8 record.1 ∧ slice (walBytes generation pageCount records)
        (walHeaderSize + index * walRecordSize + 8) pageSize = record.2 := by
  have hblock := slice_flatMap (fun record hmem => length_recordBytes (hdata record hmem)) h
  rw [← walBytes_body generation pageCount] at hblock
  have hinner {start length : Nat} (hle : start + length ≤ walRecordSize) :
      slice (walBytes generation pageCount records)
          (walHeaderSize + index * walRecordSize + start) length =
        slice (recordBytes record) start length := by
    rw [← hblock, slice_slice _ hle, slice, slice, drop_drop, Nat.add_assoc]
  have hlen : record.2.length = pageSize := hdata record (mem_of_getElem? h)
  constructor
  · rw [← Nat.add_zero (walHeaderSize + index * walRecordSize), hinner (by decide)]
    exact slice_start _ _ (length_le 8 _)
  · rw [hinner (Nat.le_refl walRecordSize), recordBytes,
      slice_append_right _ (length_le 8 _).le, length_le]
    exact slice_all _ hlen.le

section

variable (hdata : ∀ record ∈ records, record.2.length = pageSize)
  (hpage : ∀ record ∈ records, record.1 < pageCount)

include hdata hpage

/-- The loop over the records reads them back one after the other. -/
theorem readRecords_walBytes (hcount : pageCount ≤ maxPages)
    (hdist : (records.map Prod.fst).Nodup) {index remaining : Nat}
    (h : index + remaining = records.length) :
    (List.range' index remaining).foldlM
        (readRecord (walBytes generation pageCount records) pageCount) (records.take index) =
      .ok records := by
  induction remaining generalizing index with
  | zero =>
    rw [Nat.add_zero] at h
    rw [h, take_length]
    rfl
  | succ remaining ih =>
    have hlt : index < records.length := by omega
    obtain ⟨hnum, hrec⟩ := walBytes_record generation pageCount hdata (List.getElem?_eq_getElem hlt)
    have hmem : records[index] ∈ records := getElem_mem hlt
    have hpages : maxPages = 16384 := rfl
    have hbound := hpage _ hmem
    have hnum := readU64_of_slice hnum (by omega)
    have hnew : ((records.take index).map Prod.fst).contains records[index].1 = false := by
      rw [contains_eq_mem, decide_eq_false_iff_not, map_take]
      intro hearlier
      obtain ⟨other, hother, heq⟩ := mem_take_iff_getElem.mp hearlier
      have hsame := (@List.Nodup.getElem_inj_iff _ _ hdist other _ index (by simpa using hlt)).mp
        (heq.trans (getElem_map Prod.fst).symm)
      omega
    rw [List.range'_succ, foldlM_cons, readRecord, hnum, hnew, hrec,
      ensure_pass (by simpa using hbound)]
    rw [← take_succ_eq_append_getElem hlt]
    exact ih (by omega)

theorem readWal_walBytes (hatLeast : 2 ≤ pageCount)
    (hatMost : pageCount ≤ maxPages) (hdist : (records.map Prod.fst).Nodup)
    (hcommit : 0 ∈ records.map Prod.fst) (hcount : records.length ≤ maxPages) :
    readWal (walBytes generation pageCount records) =
      .ok ⟨pageCount, generation.toNat, records⟩ := by
  obtain ⟨hmagic, hone, hsize, hgen, hnum, hrecs, hchecksum, hzero⟩ :=
    walBytes_number generation pageCount records
  have hpages : maxPages = 16384 := rfl
  have hrecordSize : walRecordSize = 4104 := rfl
  have hheaderSize : walHeaderSize = 64 := rfl
  have hone := readU32_of_slice hone (by decide)
  have hsize := readU32_of_slice hsize (by decide)
  have hgen := readU64_of_checksum hgen
  have hnum := readU64_of_slice hnum (by omega)
  have hrecs := readU64_of_slice hrecs (by omega)
  have hchecksum := readU64_of_checksum hchecksum
  have hzero := readU64_of_slice hzero (by decide)
  have hheader := readU64_of_checksum (walBytes_checksum generation pageCount records)
  have hlen := @length_walBytes generation pageCount records hdata
  have hbody := walBytes_body generation pageCount records
  have hfields := walBytes_fields generation pageCount records
  have hloop := @readRecords_walBytes generation pageCount records hdata hpage hatMost hdist
    0 records.length (Nat.zero_add _)
  rw [← range_eq_range', take_zero] at hloop
  have hmaximum : records.length * walRecordSize ≤ maxPages * walRecordSize :=
    Nat.mul_le_mul_right walRecordSize hcount
  have hmin : min (records.length * walRecordSize) (2 ^ 64 - 1) =
      records.length * walRecordSize := by
    rw [hrecordSize] at *
    omega
  rw [readWal]
  simp only [hmagic, hone, hsize, hgen, hnum, hrecs, hchecksum, hzero, hheader,
    hlen, hbody, hfields, hmin, hloop, beq_self_eq_true, Bool.and_true, ensure_pass]
  rw [ensure_pass (by simp [maxWalBytes, hmaximum]), ensure_pass (decide_eq_true ?_),
    ensure_pass (by simp [hatLeast, hatMost])]
  · exact ensure_pass (by simpa using hcommit) _ _
  · rw [hrecordSize] at *
    omega

end

end

theorem walRecords_pages (old new : Bytes) :
    (walRecords old new).map Prod.fst = (List.range (new.length / pageSize)).filter
      fun page => pageOf old page ≠ some (slice new (page * pageSize) pageSize) := by
  unfold walRecords
  rw [map_filterMap, ← filterMap_eq_filter]
  refine filterMap_congr fun page _ => ?_
  by_cases hsame : pageOf old page = some (slice new (page * pageSize) pageSize)
  · simp [hsame, Option.guard]
  · simp [hsame]

theorem readWal_encodeWal (h : encodeWal old new generation = .ok bytes)
    (hatLeast : 2 ≤ new.length / pageSize) (hatMost : new.length / pageSize ≤ maxPages)
    (hcommit : 0 ∈ (walRecords old new).map Prod.fst) :
    readWal bytes = .ok (commitWal old new generation) := by
  obtain ⟨_, h⟩ := ensure_bind_ok h
  cases h
  have hpages := walRecords_pages old new
  refine readWal_walBytes (fun record hmem => (walRecords_fits hmem).data)
    (fun record hmem => (mem_walRecords.mp hmem).1) hatLeast hatMost ?_ hcommit ?_
  · rw [hpages]
    exact List.nodup_range.filter _
  · rw [← length_map, hpages]
    exact (length_filter_le _ _).trans (by rwa [length_range])

theorem encodeWal_ok (old : Bytes) {new : Bytes} (generation : UInt64)
    (hatMost : new.length / pageSize ≤ maxPages) :
    ∃ bytes, encodeWal old new generation = .ok bytes := by
  have hcount : (walRecords old new).length ≤ maxPages := by
    rw [← length_map, walRecords_pages]
    exact (length_filter_le _ _).trans (by rwa [length_range])
  refine ⟨walBytes generation (new.length / pageSize) (walRecords old new), ?_⟩
  exact ensure_pass (decide_eq_true (Nat.add_le_add_left
    (Nat.mul_le_mul_right walRecordSize hcount) walHeaderSize)) _ _

/-! ## Files that a checkpoint may leave -/

/-- A file that a checkpoint of `base`, stopped at any point, may leave: the logged pages
hold anything, the length lies between the old and the new one. -/
structure Wal.Between (wal : Wal) (base file : Bytes) : Prop where
  lower : min base.length wal.size ≤ file.length
  upper : file.length ≤ max base.length wal.size
  bytes : ∀ index < file.length, index / pageSize ∉ wal.pages →
    file[index]? = some (base.getD index 0)

theorem Wal.between_self (wal : Wal) (base : Bytes) : wal.Between base base := by
  refine ⟨Nat.min_le_left _ _, Nat.le_max_left _ _, fun index h _ => ?_⟩
  rw [getD_eq_getElem?_getD, List.getElem?_eq_getElem h]
  rfl

theorem Wal.committed_between (hvalid : wal.Valid) {base file : Bytes} (h : wal.Between base file) :
    wal.committed file = wal.committed base := by
  have hlower := h.lower
  refine foldl_overlay_congr ⟨by rw [length_resize, length_resize], fun index hpage => ?_⟩
    fun record hmem => by rw [length_resize]; exact hvalid.fits record hmem
  rcases Nat.lt_or_ge index wal.size with hlt | hge
  · rw [getElem?_resize hlt, getElem?_resize hlt]
    rcases Nat.lt_or_ge index file.length with hinside | houtside
    · rw [getD_eq_getElem?_getD, h.bytes index hinside hpage]
      rfl
    · rw [getD_eq_getElem?_getD, getD_eq_getElem?_getD,
        List.getElem?_eq_none houtside, List.getElem?_eq_none (by omega)]
  · rw [List.getElem?_eq_none (by rwa [length_resize]),
      List.getElem?_eq_none (by rwa [length_resize])]

theorem Wal.length_committed (hvalid : wal.Valid) (base : Bytes) :
    (wal.committed base).length = wal.size := by
  rw [Wal.committed, length_foldl_overlay, length_resize]
  intro record hmem
  rw [length_resize]
  exact hvalid.fits record hmem

end Disp.Store

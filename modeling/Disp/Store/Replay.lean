import Disp.Store.Bounds
import Disp.Store.Durability

/-!
# What replaying a log does to the store file

`apply_wal` on any file and any bytes taken for a log.  The file changes only if the complete
image decodes and has the generation of the log, and without a failing operation it then becomes
that image; no step of the way leaves its range.
-/

namespace Disp.Store

open Library.Codec Library.Interaction List

open Program (perform)

variable {bytes current image : Bytes} {wal : Wal} {record : Nat × Bytes}

/-! ## The checks of a log -/

/-- The image that a log makes of the content of the store file. -/
def replay (bytes current : Bytes) : Except Invalid Bytes := do
  let wal ← readWal bytes
  let _ ← wal.check (wal.committed current)
  return wal.committed current

def checkedRecord (bytes : Bytes) (pageCount : Nat) (records : List (Nat × Bytes))
    (record : Nat) : Checked (List (Nat × Bytes)) := do
  let offset ← times record walRecordSize
  let page ← rangeU64 bytes (walHeaderSize + offset)
  refuse (decide (page < pageCount) && !(records.map Prod.fst).contains page)
  let data ← range bytes (walHeaderSize + offset + 8) (walHeaderSize + offset + walRecordSize)
  return records ++ [(page, data)]

def checkedWal (bytes : Bytes) : Checked Wal := do
  refuse (decide (walHeaderSize ≤ bytes.length) && decide (bytes.length ≤ maxWalBytes))
  let found ← range bytes 0 (0 + 8)
  let number ← rangeU32 bytes 8
  let size ← rangeU32 bytes 12
  let reserved ← rangeU64 bytes 48
  let fields ← range bytes 0 (0 + 56)
  let checksum ← rangeU64 bytes 56
  refuse (found == walMagic && number == 1 && size == pageSize && reserved == 0 &&
      (fnv1a fields).toNat == checksum)
  let pageCount ← rangeU64 bytes 24
  let recordCount ← rangeU64 bytes 32
  -- the sum is checked and the product saturates
  let expectedLength := walHeaderSize + min (recordCount * walRecordSize) (2 ^ 64 - 1)
  refuse (decide (expectedLength < 2 ^ 64))
  let body ← range bytes walHeaderSize bytes.length
  let total ← rangeU64 bytes 40
  refuse (decide (2 ≤ pageCount) && decide (pageCount ≤ maxPages) &&
      expectedLength == bytes.length && (fnv1a body).toNat == total)
  let records ← (List.range recordCount).foldlM (checkedRecord bytes pageCount) []
  refuse ((records.map Prod.fst).contains 0)
  let generation ← rangeU64 bytes 16
  return ⟨pageCount, generation, records⟩

/-- A page is copied over the image: both sides have to have the length of a page. -/
def checkedOverlay (image : Bytes) (record : Nat × Bytes) : Checked Bytes := do
  let start ← times record.1 pageSize
  if start + pageSize ≤ image.length ∧ record.2.length = pageSize then return overlay image record
  else .error .panicked

def checkedGeneration (bytes : Bytes) : Checked Nat :=
  if pageSize ≤ bytes.length then do
    let found ← range bytes 0 (0 + 8)
    let number ← rangeU32 bytes 8
    if found = magic ∧ number = version then rangeU64 bytes 16 else return 0
  else return 0

def checkedReplay (bytes current : Bytes) : Checked Bytes := do
  let wal ← checkedWal bytes
  let size ← times wal.pageCount pageSize
  let image ← wal.records.foldlM checkedOverlay (resize size current)
  let generation ← checkedGeneration image
  refuse (generation == wal.generation)
  let _ ← checkedDecode image
  return image

theorem checkedRecord_eq {pageCount recordCount record : Nat} {records : List (Nat × Bytes)}
    (hbytes : bytes.length ≤ maxWalBytes)
    (hlen : bytes.length = walHeaderSize + recordCount * walRecordSize)
    (hrec : record < recordCount) :
    checkedRecord bytes pageCount records record =
      settled (readRecord bytes pageCount records record) := by
  have hnext : (record + 1) * walRecordSize ≤ recordCount * walRecordSize :=
    Nat.mul_le_mul_right walRecordSize hrec
  have hsize : walRecordSize = 8 + pageSize := rfl
  have hmax : maxWalBytes = 67240000 := rfl
  rw [Nat.succ_mul] at hnext
  unfold checkedRecord readRecord
  rw [times_ok (by omega), ok_bind, rangeU64_ok (by omega)]
  refine refuse_eq fun _ => ?_
  have hstop : walHeaderSize + record * walRecordSize + walRecordSize =
      walHeaderSize + record * walRecordSize + 8 + pageSize := by omega
  rw [hstop, range_ok (by omega)]
  rfl

theorem checkedWal_eq (bytes : Bytes) : checkedWal bytes = settled (readWal bytes) := by
  have hheader : walHeaderSize = 64 := rfl
  refine refuse_eq fun hlen => ?_
  rw [Bool.and_eq_true, decide_eq_true_eq, decide_eq_true_eq] at hlen
  rw [range_ok (by omega), rangeU32_ok (by omega), rangeU32_ok (by omega), rangeU64_ok (by omega),
    range_ok (by omega), rangeU64_ok (by omega)]
  refine refuse_eq fun _ => ?_
  rw [rangeU64_ok (by omega), rangeU64_ok (by omega)]
  refine refuse_eq fun hoverflow => ?_
  have hoverflow := of_decide_eq_true hoverflow
  rw [range_rest hlen.1, rangeU64_ok (by omega)]
  refine refuse_eq fun hcons => ?_
  simp only [Bool.and_eq_true, beq_iff_eq] at hcons
  rw [foldlM_settled (fun _ => True) trivial]
  · refine bind_settled fun records _ => ?_
    refine refuse_eq fun _ => ?_
    rw [rangeU64_ok (by omega)]
    rfl
  · intro record hrec records _
    exact ⟨checkedRecord_eq hlen.2 (by omega) (mem_range.mp hrec),
      fun _ _ => trivial⟩

theorem checkedOverlay_eq {records : List (Nat × Bytes)} (himage : image.length ≤ maxFileBytes)
    (hfits : ∀ record ∈ records, Fits image.length record) :
    records.foldlM checkedOverlay image = .ok (records.foldl overlay image) := by
  induction records generalizing image with
  | nil => rfl
  | cons record records ih =>
    have hrec := hfits record mem_cons_self
    have hwithin := hrec.within
    have hmax : maxFileBytes = 67108864 := rfl
    rw [Nat.succ_mul] at hwithin
    have hstep : checkedOverlay image record = .ok (overlay image record) := by
      rw [checkedOverlay, times_ok (by omega), ok_bind, if_pos ⟨hwithin, hrec.data⟩]
      rfl
    have hlen := length_overlay hrec
    rw [foldlM_cons, hstep]
    refine ih (hlen ▸ himage) fun other hother => ?_
    rw [hlen]
    exact hfits other (mem_cons_of_mem record hother)

theorem checkedGeneration_eq (bytes : Bytes) :
    checkedGeneration bytes = .ok (currentGeneration bytes) := by
  have hsize : pageSize = 4096 := rfl
  rw [checkedGeneration, currentGeneration]
  by_cases hlen : pageSize ≤ bytes.length
  · rw [if_pos hlen, range_ok (by omega), ok_bind, rangeU32_ok (by omega), ok_bind,
      rangeU64_ok (by omega)]
    split_ifs <;> simp_all
    rfl
  · rw [if_neg hlen, if_neg fun h => hlen h.1]
    rfl

/-- No step of the replay panics. -/
theorem checkedReplay_eq (bytes current : Bytes) :
    checkedReplay bytes current = settled (replay bytes current) := by
  rw [checkedReplay, checkedWal_eq]
  refine bind_settled fun wal hwal => ?_
  have hvalid := readWal_valid hwal
  have hsize := Disk.size_le_maxFileBytes hvalid
  have hmax : maxFileBytes = 67108864 := rfl
  rw [Wal.size] at hsize
  rw [times_ok (by omega), ok_bind, checkedOverlay_eq, ok_bind, checkedGeneration_eq]
  · have himage : wal.records.foldl overlay (resize (wal.pageCount * pageSize) current) =
        wal.committed current := rfl
    rw [himage, checkedDecode_eq, Wal.check, bind_assoc]
    refine refuse_eq fun _ => ?_
    cases decode (wal.committed current) <;> rfl
  · rwa [length_resize]
  · intro record hrec
    rw [length_resize]
    exact hvalid.fits record hrec

/-! ## The file -/

variable {world : World Disk Operation}

/-- The image of the store file under the log: it decodes, and it has the generation of the
log. -/
def Disk.Replays (disk : Disk) (bytes image : Bytes) : Prop :=
  ∃ wal snapshot, readWal bytes = .ok wal ∧ disk.content.length ≤ maxFileBytes ∧
    image = wal.committed disk.content ∧ decode image = .ok snapshot ∧
    currentGeneration image = wal.generation

theorem check_eq_ok {snapshot : Snapshot} (h : wal.check image = .ok snapshot) :
    decode image = .ok snapshot ∧ currentGeneration image = wal.generation := by
  obtain ⟨hgen, h⟩ := ensure_bind_ok h
  refine ⟨?_, beq_iff_eq.mp hgen⟩
  split at h
  · cases h
    assumption
  · cases h

theorem stoppable_any (world : World Disk Operation) :
    Stoppable environment world fun _ => True :=
  fun _ _ => trivial

theorem failed_faulty (operation : Operation) (log : Log) : Faulty (.failed operation :: log) :=
  ⟨operation, mem_cons_self⟩

theorem quiet_any : Quiet fun _ => True := ⟨fun _ _ _ _ => trivial, fun _ _ _ _ => trivial⟩

theorem resting_any (world : World Disk Operation) :
    Resting (fun _ => True) (fun _ => True) world :=
  ⟨fun _ _ => stoppable_any _, fun _ _ => trivial, trivial⟩

/-- The pages that are still to be written make the image of the file. -/
def Wal.Completes (wal : Wal) (image : Bytes) (records : List (Nat × Bytes))
    (world : World Disk Operation) : Prop :=
  (∀ record ∈ records, record ∈ wal.records) ∧ ∃ file, world.state.store = some file ∧
    records.foldl overlay (resize wal.size file) = image

theorem spec_completes (hvalid : wal.Valid) (record : Nat × Bytes) (records : List (Nat × Bytes))
    (world : World Disk Operation) (h : wal.Completes image (record :: records) world) :
    Spec environment (writeRecord record) world
      (onResult (fun _ => wal.Completes image records) fun _ after => Faulty after.log)
      fun _ => True := by
  obtain ⟨hmem, file, hfile, himage⟩ := h
  have hfits := hvalid.fits record (hmem record mem_cons_self)
  refine .step (stoppable_any _) ?_ fun _ _ => .done (stoppable_any _) (failed_faulty _ _)
  refine .done (stoppable_any _) ⟨fun other h => hmem other (mem_cons_of_mem record h),
    Disk.writeAt file (record.1 * pageSize) record.2, ?_, ?_⟩
  · change world.state.store.map _ = _
    rw [hfile]
    rfl
  · rw [resize_writeAt hfits]
    exact himage

theorem spec_checkpointed (hvalid : wal.Valid) (world : World Disk Operation) :
    Spec environment (checkpoint wal) world
      (onResult
        (fun _ after => after.state.store = some (wal.committed world.state.content))
        fun _ after => Faulty after.log) fun _ => True := by
  refine .step (stoppable_any world) ?_ fun _ _ => .done (stoppable_any _) (failed_faulty _ _)
  refine (Spec.each (fun world' _ => stoppable_any world') (spec_completes hvalid)
    ⟨fun _ h => h, world.state.content, rfl, rfl⟩).bind ?_ fun _ _ h => h
  rintro - written ⟨-, file, hfile, himage⟩
  refine .step (stoppable_any _) ?_ fun _ _ => .done (stoppable_any _) (failed_faulty _ _)
  refine .step (stoppable_any _) ?_ fun _ _ => .done (stoppable_any _) (failed_faulty _ _)
  refine .done (stoppable_any _) ?_
  change written.state.store.map (resize wal.size) = _
  rw [hfile]
  exact congrArg some himage

theorem mapError_eq_ok {α : Type} {result : Except Invalid α} {value : α}
    (h : result.mapError Error.invalid = .ok value) : result = .ok value := by
  cases result with
  | ok found =>
    cases h
    rfl
  | error error => cases h

/-- What `apply_wal` ends with: the image in the file, or an error with the file unchanged unless
there is such an image and an operation failed. -/
theorem spec_replayed (bytes : Bytes) (world : World Disk Operation) :
    Spec environment (applyWal bytes) world
      (onResult
        (fun _ after => ∃ image, world.state.Replays bytes image ∧ after.state.store = some image)
        fun _ after => (∃ image, world.state.Replays bytes image) ∧ Faulty after.log ∨
          (¬ ∃ image, world.state.Replays bytes image) ∧ after.state.store = world.state.store)
      fun _ => True := by
  refine .lift (stoppable_any world) ?_ ?_
  · intro wal hwal
    have hread := mapError_eq_ok hwal
    refine (spec_readStore quiet_any (resting_any world)).bind ?_ ?_
    · rintro current after ⟨hstate, -, hres | ⟨hres, -⟩⟩
      · obtain ⟨rfl, hlen⟩ := bounded_eq_ok (mapError_eq_ok hres.symm)
        refine .lift (stoppable_any after) ?_ ?_
        · intro snapshot hcheck
          obtain ⟨hdec, hgen⟩ := check_eq_ok (mapError_eq_ok hcheck)
          have hreplays : world.state.Replays bytes (wal.committed world.state.content) :=
            ⟨wal, snapshot, hread, hlen, rfl, hdec, hgen⟩
          refine (spec_checkpointed (readWal_valid hread) after).weaken ?_ fun _ h => h
          rintro (error | done) final hfinal
          · exact .inl ⟨⟨_, hreplays⟩, hfinal⟩
          · exact ⟨_, hreplays, hstate ▸ hfinal⟩
        · intro error herror
          refine .inr ⟨?_, by rw [hstate]⟩
          rintro ⟨image, wal', snapshot, hread', -, rfl, hdec, hgen⟩
          cases hread.symm.trans hread'
          rw [Wal.check, ensure_pass (beq_iff_eq.mpr hgen), hdec] at herror
          cases herror
      · cases hres
    · rintro error after ⟨hstate, -, hres⟩
      by_cases hreplays : ∃ image, world.state.Replays bytes image
      · refine .inl ⟨hreplays, ?_⟩
        obtain hres | ⟨-, hfaulty⟩ := hres
        · obtain ⟨image, wal', snapshot, hread', hlen, -⟩ := hreplays
          rw [bounded_ok hlen] at hres
          cases hres
        · exact hfaulty
      · exact .inr ⟨hreplays, by rw [hstate]⟩
  · intro error herror
    refine .inr ⟨?_, rfl⟩
    rintro ⟨image, wal, snapshot, hread, -⟩
    rw [hread] at herror
    cases herror

/-- For every store file and every log: no step of the replay panics, nor does the reader of a
payload; a run that succeeds leaves the image of the file, which decodes and has the generation
of the log; a run that fails leaves the file as it was, unless there is such an image and an
operation failed; and without failing operations the replay succeeds when there is such an
image. -/
theorem applyWal_guarded (bytes : Bytes) (disk : Disk) :
    (∀ current, checkedReplay bytes current = settled (replay bytes current)) ∧
      (∀ (payload : Bytes) (start length : Nat) (error : Invalid),
        payload.length ≤ maxFileBytes → start ≤ payload.length →
          takeAt payload start length = settled ((take length error (payload.drop start)).map
            fun taken => (taken.1, payload.length - taken.2.length))) ∧
      (∀ world, Run environment (applyWal bytes) ⟨disk, []⟩ (some (.ok ())) world →
        ∃ image, disk.Replays bytes image ∧ world.state.store = some image) ∧
      (∀ error world, Run environment (applyWal bytes) ⟨disk, []⟩ (some (.error error)) world →
        (∃ image, disk.Replays bytes image) ∧ Faulty world.log ∨
          (¬ ∃ image, disk.Replays bytes image) ∧ world.state.store = disk.store) ∧
      ∀ image, disk.Replays bytes image →
        ((applyWal bytes).run environment (fun _ => false) ⟨disk, []⟩).1 = .ok () := by
  refine ⟨checkedReplay_eq bytes, fun payload start length error hlen hstart =>
    takeAt_eq hlen hstart error, fun world hrun => spec_replayed bytes _ _ _ hrun,
    fun error world hrun => spec_replayed bytes _ _ _ hrun, fun image hreplays => ?_⟩
  have hspec := spec_replayed bytes _ _ _ (undisturbed (applyWal bytes) ⟨disk, []⟩)
  have hfaultless := @run_not_faulty _ (applyWal bytes) ⟨disk, []⟩ not_faulty_nil
  generalize (applyWal bytes).run environment (fun _ => false) ⟨disk, []⟩ = outcome at *
  obtain ⟨result, world⟩ := outcome
  cases result with
  | ok done => rfl
  | error error =>
    obtain ⟨-, hfaulty⟩ | ⟨hnone, -⟩ := hspec
    · exact absurd hfaulty hfaultless
    · exact absurd ⟨image, hreplays⟩ hnone

end Disp.Store

import Disp.Store.Disk

/-!
# Recovery

What a store holds is a function of its files, its *view*: the committed image of the log
if there is one, else the store file, else the backup.  No operation of a load or of a
commit other than the renaming of the log changes the view, whether it is performed, fails
half way, or is cut off by a crash.
-/

namespace Disp.Store

open Library.Codec Library.Interaction List

variable {bytes : Bytes} {limit : Nat} {data : Bytes} {index : Nat} {base file : Bytes}

/-! ## What a store holds -/

def readable (bytes : Bytes) : Except Invalid Snapshot := do
  let bytes ← bounded bytes maxFileBytes
  decode bytes

theorem bounded_ok (h : bytes.length ≤ limit) : bounded bytes limit = .ok bytes :=
  ensure_pass (decide_eq_true h) _ _

theorem bounded_eq_ok {value : Bytes} (h : bounded bytes limit = .ok value) :
    value = bytes ∧ bytes.length ≤ limit := by
  obtain ⟨hle, h⟩ := ensure_bind_ok h
  cases h
  exact ⟨rfl, of_decide_eq_true hle⟩

namespace Disk

def content (disk : Disk) : Bytes := disk.store.getD []

def viewWal (disk : Disk) (bytes : Bytes) : Except Invalid Snapshot := do
  let bytes ← bounded bytes maxWalBytes
  let wal ← readWal bytes
  let current ← bounded disk.content maxFileBytes
  wal.check (wal.committed current)

def viewBackup (bytes : Bytes) : Except Invalid Snapshot :=
  (readable bytes).mapError fun error => unavailable .notFound (.invalid error)

/-- What an undisturbed load returns. -/
def view (disk : Disk) : Except Invalid Snapshot :=
  match disk.wal with
  | some bytes => disk.viewWal bytes
  | none =>
    match disk.store with
    | some bytes => readable bytes
    | none =>
      match disk.backup with
      | some bytes => viewBackup bytes
      | none => .ok .empty

theorem view_congr {disk other : Disk} (hstore : other.store = disk.store)
    (hwal : other.wal = disk.wal) (hbackup : other.backup = disk.backup) :
    other.view = disk.view := by
  cases disk
  cases hstore
  cases hwal
  cases hbackup
  rfl

/-- Nothing waits for synchronisation. -/
structure Settled (disk : Disk) : Prop where
  durable : disk.durable = disk.store
  dirty : disk.dirty = []

/-- A checkpoint of the log is under way or was broken off. -/
structure Replaying (disk : Disk) (bytes : Bytes) (wal : Wal) : Prop where
  log : disk.wal = some bytes
  read : readWal bytes = .ok wal
  bounded : (disk.durable.getD []).length ≤ maxFileBytes
  between : wal.Between (disk.durable.getD []) disk.content
  dirty : ∀ page ∈ disk.dirty, page ∈ wal.pages

/-- The states of a disk between and during the runs of the store's programs. -/
def Clean (disk : Disk) : Prop :=
  disk.Settled ∨ ∃ bytes wal, disk.Replaying bytes wal

end Disk

/-! ## Writing pages -/

theorem length_writeAt (bytes : Bytes) (start : Nat) (h : data ≠ []) :
    (Disk.writeAt bytes start data).length = max bytes.length (start + data.length) := by
  rw [Disk.writeAt, if_neg (by simpa using h), length_append, length_append,
    length_resize, length_drop]
  omega

theorem getElem?_writeAt (bytes : Bytes) (start : Nat) (h : data ≠ []) (index : Nat) :
    (Disk.writeAt bytes start data)[index]? =
      if index < start then some (bytes.getD index 0)
      else if index < start + data.length then data[index - start]?
      else bytes[index]? := by
  rw [Disk.writeAt, if_neg (by simpa using h)]
  split_ifs with hbefore hwithin
  · rw [List.getElem?_append_left (by rwa [length_resize]), getElem?_resize hbefore]
  · rw [List.getElem?_append_right (by rw [length_resize]; omega), length_resize,
      List.getElem?_append_left (by omega)]
  · rw [List.getElem?_append_right (by rw [length_resize]; omega), length_resize,
      List.getElem?_append_right (by omega), List.getElem?_drop]
    congr 1
    omega

theorem getD_of_length_le (h : bytes.length ≤ index) : bytes.getD index 0 = 0 := by
  rw [getD_eq_getElem?_getD, List.getElem?_eq_none h]
  rfl

variable {wal : Wal}

theorem Wal.Between.getD (h : wal.Between base file) (hindex : index < wal.size)
    (hpage : index / pageSize ∉ wal.pages) : file.getD index 0 = base.getD index 0 := by
  have hlower := h.lower
  rcases Nat.lt_or_ge index file.length with hinside | houtside
  · rw [getD_eq_getElem?_getD, h.bytes index hinside hpage]
    rfl
  · rw [getD_of_length_le houtside, getD_of_length_le (by omega)]

/-- A logged page may be written, whole or in part. -/
theorem Wal.Between.writeAt {page : Nat} (h : wal.Between base file)
    (hpage : page ∈ wal.pages) (hwithin : (page + 1) * pageSize ≤ wal.size)
    (hdata : data.length ≤ pageSize) :
    wal.Between base (Disk.writeAt file (page * pageSize) data) := by
  have hlower := h.lower
  have hupper := h.upper
  by_cases hempty : data = []
  · rw [Disk.writeAt, if_pos (by simpa using hempty)]
    exact h
  rw [Nat.succ_mul] at hwithin
  refine ⟨?_, ?_, fun index hindex hother => ?_⟩
  · rw [length_writeAt _ _ hempty]
    omega
  · rw [length_writeAt _ _ hempty]
    omega
  · rw [length_writeAt _ _ hempty] at hindex
    rw [getElem?_writeAt _ _ hempty]
    split_ifs with hbefore hinside
    · rw [h.getD (by omega) hother]
    · have hsame : index / pageSize = page := by
        unfold pageSize at *
        omega
      exact absurd (hsame ▸ hpage) hother
    · exact h.bytes index (by omega) hother

theorem Wal.Between.resize {base file : Bytes} (h : wal.Between base file) :
    wal.Between base (resize wal.size file) := by
  refine ⟨?_, ?_, fun index hindex hother => ?_⟩
  · rw [length_resize]
    exact Nat.min_le_right _ _
  · rw [length_resize]
    exact Nat.le_max_right _ _
  · rw [length_resize] at hindex
    rw [getElem?_resize hindex, h.getD hindex hother]

/-- Writing a whole page and laying it over the resized file is the same. -/
theorem resize_writeAt {length : Nat} {record : Nat × Bytes} (h : Fits length record) :
    resize length (Disk.writeAt file (record.1 * pageSize) record.2) =
      overlay (resize length file) record := by
  have hwithin := h.within
  have hdata := h.data
  have hempty : record.2 ≠ [] := by
    intro heq
    rw [heq] at hdata
    exact absurd hdata (by decide)
  have hfits : Fits (resize length file).length record := by rwa [length_resize]
  refine ext_getElem? fun index => ?_
  have hnone (bytes : Bytes) (hge : length ≤ index) : (resize length bytes)[index]? = none :=
    List.getElem?_eq_none (by rwa [length_resize])
  unfold pageSize at *
  rw [getElem?_overlay hfits]
  unfold pageSize
  rcases Nat.lt_or_ge index length with hlt | hge
  · rw [getElem?_resize hlt, getElem?_resize hlt, getD_eq_getElem?_getD,
      getElem?_writeAt _ _ hempty]
    split_ifs with hbefore hpage hinside hpage hpage
    · omega
    · rfl
    · rw [List.getElem?_eq_getElem (by omega)]
      rfl
    · omega
    · omega
    · rw [getD_eq_getElem?_getD]
  · rw [hnone _ hge, hnone _ hge, if_neg (by omega)]

/-! ## Crashes -/

namespace Disk

variable {disk : Disk} {image : Option Bytes} {wal : Wal}

theorem Replaying.valid (h : disk.Replaying bytes wal) : wal.Valid :=
  readWal_valid h.read

theorem size_le_maxFileBytes (h : wal.Valid) : wal.size ≤ maxFileBytes :=
  (Nat.mul_le_mul_right pageSize h.atMost).trans (by decide)

theorem bounded_of_between (hvalid : wal.Valid) (hbase : base.length ≤ maxFileBytes)
    (h : wal.Between base file) : file.length ≤ maxFileBytes :=
  h.upper.trans (Nat.max_le.mpr ⟨hbase, size_le_maxFileBytes hvalid⟩)

theorem Replaying.view (h : disk.Replaying bytes wal) :
    disk.view = wal.check (wal.committed (disk.durable.getD [])) := by
  have hbdd := bounded_of_between h.valid h.bounded h.between
  rw [Disk.view, h.log]
  change disk.viewWal bytes = _
  rw [viewWal, bounded_ok (readWal_length h.read), bounded_ok hbdd,
    ← Wal.committed_between h.valid h.between]
  change (readWal bytes >>= fun _ => _) = _
  rw [h.read]
  rfl

theorem Settled.replaying (h : disk.Settled) (hlog : disk.wal = some bytes)
    (hread : readWal bytes = .ok wal) (hbdd : disk.content.length ≤ maxFileBytes) :
    disk.Replaying bytes wal := by
  refine ⟨hlog, hread, by rwa [h.durable], ?_, by simp [h.dirty]⟩
  rw [h.durable]
  exact wal.between_self disk.content

theorem Clean.replaying (h : disk.Clean) (hlog : disk.wal = some bytes)
    (hread : readWal bytes = .ok wal) (hbdd : disk.content.length ≤ maxFileBytes) :
    disk.Replaying bytes wal := by
  rcases h with hset | ⟨bytes', wal', hreplay⟩
  · exact hset.replaying hlog hread hbdd
  · cases hreplay.log.symm.trans hlog
    cases hreplay.read.symm.trans hread
    exact hreplay

theorem Image.eq_store (hset : disk.Settled) (h : disk.Image image) : image = disk.store := by
  obtain ⟨hdurable, hdirty⟩ := hset
  cases image with
  | none => exact (hdurable ▸ h : disk.store = none).symm
  | some image =>
    obtain ⟨hsome, hlower, hupper, hbytes⟩ := h
    rw [hdurable] at hsome hlower hupper hbytes
    obtain ⟨bytes, hstore⟩ := Option.isSome_iff_exists.mp (or_self_iff.mp hsome)
    rw [hstore] at hlower hupper hbytes ⊢
    simp only [Option.getD_some, Nat.min_self, Nat.max_self] at hlower hupper hbytes
    congr 1
    refine ext_getElem (Nat.le_antisymm hupper hlower) fun index hindex hindex' => ?_
    have hbyte := hbytes index hindex (by simp [hdirty])
    rw [List.getElem?_eq_getElem hindex, getD_eq_getElem?_getD,
      List.getElem?_eq_getElem hindex'] at hbyte
    exact Option.some.inj hbyte

theorem Image.between (hreplay : disk.Replaying bytes wal) (h : disk.Image image) :
    wal.Between (disk.durable.getD []) (image.getD []) := by
  cases image with
  | none =>
    rw [show disk.durable = none from h]
    exact wal.between_self []
  | some image =>
    obtain ⟨-, hlower, hupper, hbytes⟩ := h
    have hstoreLower := hreplay.between.lower
    have hstoreUpper := hreplay.between.upper
    unfold content at hstoreLower hstoreUpper
    refine ⟨?_, ?_, fun index hindex hpage => hbytes index hindex fun hdirty =>
      hpage (hreplay.dirty _ hdirty)⟩
    · rw [Option.getD_some]
      omega
    · rw [Option.getD_some]
      omega

theorem Clean.left {after : Disk} (h : disk.Clean) (hleft : disk.Left after) :
    after.Settled ∧ after.view = disk.view := by
  refine ⟨⟨hleft.durable, hleft.dirty⟩, ?_⟩
  rcases h with hset | ⟨bytes, wal, hreplay⟩
  · have hstore := hleft.image.eq_store hset
    exact view_congr hstore hleft.wal hleft.backup
  · have hbetween := hleft.image.between hreplay
    have hafter : after.Replaying bytes wal :=
      Settled.replaying ⟨hleft.durable, hleft.dirty⟩ (hleft.wal.trans hreplay.log)
        hreplay.read (bounded_of_between hreplay.valid hreplay.bounded hbetween)
    rw [hafter.view, hreplay.view, hleft.durable, Wal.committed_between hreplay.valid hbetween]

/-! ## Steps of a checkpoint -/

section

variable {disk : Disk} {bytes : Bytes} {wal : Wal}

theorem Replaying.change (h : disk.Replaying bytes wal) {after : Disk}
    (hwal : after.wal = disk.wal) (hdurable : after.durable = disk.durable)
    (hbetween : wal.Between (disk.durable.getD []) after.content)
    (hdirty : ∀ page ∈ after.dirty, page ∈ wal.pages) :
    after.Replaying bytes wal ∧ after.view = disk.view := by
  have hafter : after.Replaying bytes wal :=
    ⟨hwal.trans h.log, h.read, hdurable ▸ h.bounded, hdurable ▸ hbetween, hdirty⟩
  exact ⟨hafter, by rw [hafter.view, h.view, hdurable]⟩

theorem content_writePage (hopened : disk.store = some disk.content) (page : Nat) (data : Bytes) :
    (disk.writePage page data).content = writeAt disk.content (page * pageSize) data := by
  rw [writePage, hopened]
  rfl

theorem Replaying.writePage (h : disk.Replaying bytes wal)
    (hopened : disk.store = some disk.content) {page : Nat} (hpage : page ∈ wal.pages)
    (hwithin : (page + 1) * pageSize ≤ wal.size) (hdata : data.length ≤ pageSize) :
    (disk.writePage page data).Replaying bytes wal ∧
      (disk.writePage page data).view = disk.view := by
  refine h.change rfl rfl ?_ ?_
  · rw [content_writePage hopened]
    exact h.between.writeAt hpage hwithin hdata
  · intro other hother
    rcases mem_cons.mp hother with rfl | hother
    · exact hpage
    · exact h.dirty other hother

theorem Replaying.open (h : disk.Replaying bytes wal) :
    ({ disk with store := some (disk.store.getD []) } : Disk).Replaying bytes wal ∧
      ({ disk with store := some (disk.store.getD []) } : Disk).view = disk.view :=
  h.change rfl rfl h.between h.dirty

theorem Replaying.setLength (h : disk.Replaying bytes wal)
    (hopened : disk.store = some disk.content) :
    ({ disk with store := disk.store.map (resize wal.size) } : Disk).Replaying bytes wal ∧
      ({ disk with store := disk.store.map (resize wal.size) } : Disk).view = disk.view := by
  refine h.change rfl rfl ?_ h.dirty
  rw [hopened]
  exact h.between.resize

theorem sync_settled (disk : Disk) :
    ({ disk with durable := disk.store, dirty := [] } : Disk).Settled ∧
      ({ disk with durable := disk.store, dirty := [] } : Disk).view = disk.view :=
  ⟨⟨rfl, rfl⟩, view_congr rfl rfl rfl⟩

end

end Disk

end Disp.Store

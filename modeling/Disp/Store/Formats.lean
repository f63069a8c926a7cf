import Disp.Store.Layout
import Disp.Store.Replay

/-!
# Older formats

Files of the earlier page formats: what the decoder makes of them, and what a commit over one of
them leaves.
-/

namespace Disp.Store

open Library.Codec Library.Interaction

open Program (perform lift attempt)

variable {number : Nat} {allowedFlags : UInt8} {snapshot new : Snapshot} {generation : UInt64}
  {bytes old image : Bytes} {disk : Disk}

/-! ## Commits over an older file -/

/-- A commit of which no operation fails. -/
def commitRun (disk : Disk) (snapshot : Snapshot) : Except Error Unit × World Disk Operation :=
  (commit (.ok true) snapshot).run environment (fun _ => false) ⟨disk, []⟩

/-- The commit point of such a commit. -/
def renamedWorld (disk : Disk) (bytes : Bytes) : World Disk Operation :=
  ⟨(disk.set .temporary none).set .wal (some bytes), [.performed .syncDirectory,
    .performed (.rename .temporary .wal), .performed .syncTemporary,
    .performed (.writeTemporary bytes), .performed .createTemporary, .performed (.read .store),
    .performed .createDirectory, .performed (.read .wal)]⟩

theorem run_commit (hstore : disk.store = some old) (hwal : disk.wal = none)
    (hbdd : old.length ≤ maxFileBytes) (h : commitLog old new = .ok bytes) :
    commitRun disk new = (attempt (finish bytes) >>= fun
        | .ok _ => return ()
        | .error error => do
            let _ ← attempt (perform (.remove .temporary))
            lift (.error error)).run environment (fun _ => false) (renamedWorld disk bytes) := by
  obtain ⟨store, durable, dirty, wal, backup, temporary⟩ := disk
  cases hstore
  cases hwal
  change Program.run environment _
    (Program.bind (Program.bind (attempt (checked (bounded old maxFileBytes))) _) _) _ = _
  rw [bounded_ok hbdd]
  change Program.run environment _ (Program.bind (checked (commitLog old new)) _) _ = _
  rw [h]
  rfl

theorem commitLog_upgrade (h : encodePages new 1 = .ok image) (hold : currentGeneration old = 0) :
    ∃ bytes wal, commitLog old new = .ok bytes ∧ readWal bytes = .ok wal ∧
      wal.committed old = image := by
  obtain ⟨bytes, hlog⟩ := commitLog_ok hold h
  obtain ⟨payload, generation, hgen, hencode, hread⟩ := readWal_commitLog hlog
  obtain rfl : generation = 1 := UInt64.toNat_inj.mp (by rw [hgen, hold]; rfl)
  cases h.symm.trans hencode
  exact ⟨bytes, _, hlog, hread, committed_pagesOf old 1 payload⟩

/-- After its checkpoint, a commit leaves the store file as it is and reports success. -/
theorem run_finish (bytes : Bytes) {world applied : World Disk Operation}
    {result : Except Error Unit}
    (happlied : (applyWal bytes).run environment (fun _ => false) world = (result, applied))
    (hwal : result = .ok () → applied.state.wal = some bytes) :
    ((finish bytes).run environment (fun _ => false) world).1 = .ok () ∧
      ((finish bytes).run environment (fun _ => false) world).2.state.store =
        applied.state.store := by
  rw [finish, run_attempt, happlied]
  cases result with
  | error error => exact ⟨rfl, rfl⟩
  | ok done =>
    obtain ⟨⟨store, durable, dirty, wal, backup, temporary⟩, log⟩ := applied
    cases hwal rfl
    cases backup <;> exact ⟨rfl, rfl⟩

/-- A commit over a file without a generation leaves the image of the snapshot, which is loaded
exactly when the decoder admits it. -/
theorem commit_over (hstore : disk.store = some old) (hdurable : disk.durable = disk.store)
    (hdirty : disk.dirty = []) (hwal : disk.wal = none) (hbdd : old.length ≤ maxFileBytes)
    (hold : currentGeneration old = 0) (h : encodePages new 1 = .ok image) :
    (commitRun disk new).1 = .ok () ∧
      ((commitRun disk new).2.state.store = some image ∧
        loaded (commitRun disk new).2.state = .ok ⟨inNameOrder new.tables⟩ ↔ new.Admitted) := by
  obtain ⟨bytes, wal, hlog, hread, himage⟩ := commitLog_upgrade h hold
  have hcont : (renamedWorld disk bytes).state.content = old := by
    rw [renamedWorld, Disk.set, Disk.set, hstore]
    rfl
  obtain ⟨hlen, hpub⟩ := @commitLog_published (renamedWorld disk bytes).state new bytes
    (hcont ▸ hlog) (hcont ▸ hbdd) rfl
  have hholding : Holding (renamedWorld disk bytes).state.view Durable (renamedWorld disk bytes) :=
    ⟨.inl ⟨hdurable, hdirty⟩, rfl, by simp [Renamed, renamedWorld],
      by simp [Unremoved, renamedWorld]⟩
  have hrun := undisturbed (applyWal bytes) (renamedWorld disk bytes)
  have happly := spec_applyWal quiet_durable hholding rfl hlen _ _ hrun
  have hreplay := spec_replayed bytes _ _ _ hrun
  have hfaultless := @run_not_faulty _ (applyWal bytes) (renamedWorld disk bytes)
    (by simp [Faulty, renamedWorld])
  obtain ⟨⟨result, applied⟩, houtcome⟩ : ∃ outcome,
      (applyWal bytes).run environment (fun _ => false) (renamedWorld disk bytes) = outcome :=
    ⟨_, rfl⟩
  rw [houtcome] at happly hreplay hfaultless
  obtain ⟨hres, hleft⟩ := run_finish bytes houtcome fun hok => by
    subst hok
    exact happly.wal
  have hcommit : (commitRun disk new).1 = .ok () ∧
      (commitRun disk new).2.state.store = applied.state.store := by
    rw [run_commit hstore hwal hbdd hlog, run_attempt, hres]
    exact ⟨rfl, hleft⟩
  have hclean : disk.Clean := .inl ⟨hdurable, hdirty⟩
  have hspec := spec_commit hclean.holding _ _ (undisturbed (commit (.ok true) new) ⟨disk, []⟩)
  change Committed _ _ (commitRun disk new).1 (commitRun disk new).2 at hspec
  rw [hcommit.1] at hspec
  obtain ⟨_, hnext, hfinal⟩ := hspec
  rw [hcommit.2, loaded_eq hfinal.clean, hfinal.view]
  refine ⟨hcommit.1, fun hboth => by_contra fun hnot => ?_, fun hadm => ⟨?_, ?_⟩⟩
  · obtain ⟨cause, hcause⟩ := hnext.2 hnot
    rw [hcause] at hboth
    cases hboth.2
  · cases result with
    | error error =>
      rcases happly.2 with hfaulty | hreported
      · exact absurd hfaulty hfaultless
      · rw [hpub.1 hadm] at hreported
        cases hreported
    | ok done =>
      obtain ⟨found, ⟨wal', -, hread', -, rfl, -⟩, hfound⟩ := hreplay
      cases hread.symm.trans hread'
      rw [hfound, hcont, himage]
  · rw [hnext.1 hadm]
    rfl

/-! ## Files of the older formats -/

theorem currentGeneration_older (hformat : PageFormat number allowedFlags false)
    (payload : Bytes) : currentGeneration (pagesOf number generation payload) = 0 := by
  have hnum : number < 2 ^ 32 ∧ number ≠ version := by cases hformat <;> decide
  refine if_neg fun h => hnum.2 ?_
  rw [← h.2.2, readU32_pagesOf hnum.1]

/-- A file that a snapshot without constraints was written to in an older page format is decoded
to the tables of the snapshot, as its file of the current format is, if the format has all flags
of its fields, and refused otherwise.  So is every other image with a flag outside the mask of its
version.  A commit over the file leaves one of the current format, from which the new snapshot is
loaded, exactly when no new table has more than 4096 constraints. -/
theorem older_format_iff (hformat : PageFormat number allowedFlags false)
    (hplain : ∀ table ∈ snapshot.tables, table.constraints = [])
    (hbytes : encodePagesVersion snapshot generation number false = .ok bytes) :
    ((∀ table ∈ snapshot.tables, ∀ field ∈ table.fields, field.Known allowedFlags) →
        decode bytes = .ok ⟨inNameOrder snapshot.tables⟩ ∧
          ∀ generation current, encodePages snapshot generation = .ok current →
            decode current = decode bytes) ∧
      ((∃ table ∈ snapshot.tables, ∃ field ∈ table.fields, ¬ field.Known allowedFlags) →
        ∃ error, decode bytes = .error error) ∧
      (∀ number allowedFlags supportsConstraints image,
        PageFormat number allowedFlags supportsConstraints → readU32 image 8 = number →
          ¬ FlagsWithin allowedFlags supportsConstraints image →
            ∃ error, decode image = .error error) ∧
      ∀ disk new image, disk.store = some bytes → disk.durable = disk.store → disk.dirty = [] →
        disk.wal = none → encodePages new 1 = .ok image →
          readU32 image 8 = version ∧ (commitRun disk new).1 = .ok () ∧
            ((commitRun disk new).2.state.store = some image ∧
              loaded (commitRun disk new).2.state = .ok ⟨inNameOrder new.tables⟩ ↔
                new.Admitted) := by
  obtain ⟨payload, hpay, hcount, rfl⟩ := encodePagesVersion_eq_ok hbytes
  have hconstrs (table : Table) (hmem : table ∈ snapshot.tables) :
      table.constraints.length ≤ maxFields := by
    rw [hplain table hmem]
    exact Nat.zero_le _
  rw [decode_pagesOf hformat hcount]
  obtain ⟨hreads, hfails⟩ := @decodePayload_encoded payload snapshot allowedFlags false hpay
  refine ⟨fun hknown => ?_, fun ⟨table, hmem, field, hfield, hunknown⟩ => ?_,
    fun _ _ _ _ => decode_error_of_flags, ?_⟩
  · have hdec := hreads fun table hmem => ⟨hknown table hmem, hconstrs table hmem⟩
    refine ⟨hdec, fun generation current hcur => ?_⟩
    rw [hdec, (decode_encoded hcur).1 hconstrs]
  · exact hfails ⟨table, hmem, fun h => hunknown (h.1 field hfield)⟩
  · intro disk new image hstore hdurable hdirty hwal himage
    refine ⟨?_, commit_over hstore hdurable hdirty hwal ?_ (currentGeneration_older hformat payload)
      himage⟩
    · obtain ⟨payload, -, -, rfl⟩ := encodePagesVersion_eq_ok himage
      exact readU32_pagesOf (by decide) 1 payload
    · rw [length_pagesOf]
      exact (Nat.mul_le_mul_right pageSize hcount).trans (by decide)

/-- One table that every page format can hold. -/
def plain : Snapshot := ⟨[⟨"Owner", [⟨"id", "Int", false, true, false, false⟩], [], [[7]]⟩]⟩

/-- A disk with only a store file. -/
def diskOf (bytes : Bytes) : Disk := ⟨some bytes, some bytes, [], none, none, none⟩

theorem encodes_plain : ∃ bytes, encodePagesVersion plain 3 pageVersion false = .ok bytes :=
  eq_ok_of_isOk (by decide +kernel)

theorem plain_upgraded :
    ∃ bytes image, encodePagesVersion plain 3 pageVersion false = .ok bytes ∧
      decode bytes = .ok ⟨inNameOrder plain.tables⟩ ∧ encodePages sample 1 = .ok image ∧
      (commitRun (diskOf bytes) sample).2.state.store = some image ∧
      loaded (commitRun (diskOf bytes) sample).2.state = .ok ⟨inNameOrder sample.tables⟩ := by
  obtain ⟨bytes, hbytes⟩ := encodes_plain
  obtain ⟨image, himage⟩ := @eq_ok_of_isOk _ (encodePages sample 1) (by decide +kernel)
  obtain ⟨hdec, -, -, hcommit⟩ := older_format_iff .first (by decide) hbytes
  exact ⟨bytes, image, hbytes, (hdec (by decide +kernel)).1, himage,
    (hcommit (diskOf bytes) sample image rfl rfl rfl rfl himage).2.2.mpr (by decide +kernel)⟩

/-- The commit of a table with 4097 constraints over the older file reports success, but does not
leave a file that loads. -/
theorem crowded_not_upgraded :
    ∃ bytes image, encodePagesVersion plain 3 pageVersion false = .ok bytes ∧
      encodePages ⟨[crowdedTable 4097]⟩ 1 = .ok image ∧
      (commitRun (diskOf bytes) ⟨[crowdedTable 4097]⟩).1 = .ok () ∧
      ¬ ((commitRun (diskOf bytes) ⟨[crowdedTable 4097]⟩).2.state.store = some image ∧
        loaded (commitRun (diskOf bytes) ⟨[crowdedTable 4097]⟩).2.state =
          .ok ⟨inNameOrder [crowdedTable 4097]⟩) := by
  obtain ⟨bytes, hbytes⟩ := encodes_plain
  obtain ⟨image, himage⟩ := encodePages_crowded le_rfl 1
  obtain ⟨payload, -, hcount, rfl⟩ := encodePagesVersion_eq_ok hbytes
  have hlen : (pagesOf pageVersion 3 payload).length ≤ maxFileBytes := by
    rw [length_pagesOf]
    exact (Nat.mul_le_mul_right pageSize hcount).trans (by decide)
  obtain ⟨hres, hloads⟩ := @commit_over _ _ _ (diskOf (pagesOf pageVersion 3 payload)) rfl rfl rfl
    rfl hlen (currentGeneration_older .first payload) himage
  exact ⟨_, image, hbytes, himage, hres, fun h => crowded_not_admitted (by decide) (hloads.mp h)⟩

end Disp.Store

import Disp.Store.Checkpoint

/-!
# Loads and commits

What a commit and the crashes and failures around it leave for the loads that follow.
-/

namespace Disp.Store

open Library.Codec Library.Interaction List

open Program (perform lift attempt)

variable {log : Log} {operation : Operation} {held : Except Invalid Snapshot}
  {property property' : Log → Prop} {world : World Disk Operation} {bytes : Bytes}
  {backup : Option Bytes} {snapshot : Snapshot}

/-! ## Recovery -/

/-- Nothing has been renamed, and no removal of the log has failed. -/
def Fresh (log : Log) : Prop := ¬ Renamed log ∧ ¬ Unremoved log

theorem not_renamed_performed (h : ¬ Renamed log) (hne : operation ≠ .rename .temporary .wal) :
    ¬ Renamed (.performed operation :: log) :=
  not_mem_cons_of_ne_of_not_mem (fun heq => hne (Event.performed.inj heq).symm) h

theorem not_renamed_failed (h : ¬ Renamed log) : ¬ Renamed (.failed operation :: log) :=
  not_mem_cons_of_ne_of_not_mem nofun h

theorem not_unremoved_performed (h : ¬ Unremoved log) : ¬ Unremoved (.performed operation :: log) :=
  not_mem_cons_of_ne_of_not_mem nofun h

theorem not_unremoved_failed (h : ¬ Unremoved log) (hne : operation ≠ .remove .wal) :
    ¬ Unremoved (.failed operation :: log) :=
  not_mem_cons_of_ne_of_not_mem (fun heq => hne (Event.failed.inj heq).symm) h

theorem quiet_fresh : Quiet Fresh where
  performed _ _ h hsilent :=
    ⟨not_renamed_performed h.1 hsilent.1, not_unremoved_performed h.2⟩
  failed _ _ h hsilent := ⟨not_renamed_failed h.1, not_unremoved_failed h.2 hsilent.2⟩

def Unrenamed (log : Log) : Prop := ¬ Renamed log

theorem quiet_unrenamed : Quiet Unrenamed where
  performed _ _ h hsilent := not_renamed_performed h hsilent.1
  failed _ _ h _ := not_renamed_failed h

theorem Holding.weaken (h : Holding held property world)
    (himp : ∀ log, property log → property' log) : Holding held property' world :=
  ⟨h.clean, h.view, himp _ h.log⟩

theorem Holding.unrenamed (h : Holding held Fresh world) : Holding held Unrenamed world :=
  h.weaken fun _ h => h.1

theorem Disk.Clean.settled {disk : Disk} (h : disk.Clean) (hwal : disk.wal = none) :
    disk.Settled := by
  rcases h with hset | ⟨bytes, wal, hreplay⟩
  · exact hset
  · cases hreplay.log.symm.trans hwal

theorem Checkpointed.remove (h : Checkpointed held property bytes backup world) :
    (world.state.set .wal none).Settled ∧ (world.state.set .wal none).view = held := by
  obtain ⟨image, hstore, hreadable⟩ := h.readable
  refine ⟨⟨h.settled.durable, h.settled.dirty⟩, ?_⟩
  rw [Disk.set, hstore]
  exact hreadable

/-- The removal of the log of a finished checkpoint. -/
theorem spec_removeWal (h : Checkpointed held property bytes backup world)
    (himp : ∀ log, property log → property' log)
    (hperf : property' (.performed (.remove .wal) :: world.log))
    (hfailed : property' (.failed (.remove .wal) :: world.log)) :
    Spec environment (perform (.remove .wal)) world
      (onResult
        (fun _ after => Holding held property' after ∧
          after = ⟨world.state.set .wal none, .performed (.remove .wal) :: world.log⟩)
        fun _ after => Holding held property' after ∧
          after = ⟨world.state, .failed (.remove .wal) :: world.log⟩) (Holding held property') := by
  have heffect : (Operation.remove .wal).effect world.state =
      (.ok [], world.state.set .wal none) := by
    rw [Operation.effect_remove, Disk.get, h.wal]
    rfl
  obtain ⟨hset, hview⟩ := h.remove
  have hrem : Holding held property'
      ⟨world.state.set .wal none, .performed (.remove .wal) :: world.log⟩ :=
    ⟨.inl hset, hview, hperf⟩
  have hkept : Holding held property' ⟨world.state, .failed (.remove .wal) :: world.log⟩ :=
    ⟨h.holding.clean, h.holding.view, hfailed⟩
  refine .perform Holding.stoppable (h.holding.weaken himp) heffect ⟨hrem, hrem, rfl⟩ ?_
  rintro state rfl
  exact ⟨hkept, hkept, rfl⟩

theorem spec_recoverWal (h : Holding held Fresh world) :
    Spec environment recoverWal world
      (onResult
        (fun _ after => Holding held Fresh after ∧ after.state.wal = none ∧
          after.state.backup = world.state.backup)
        fun error after => Holding held Unrenamed after ∧
          (Faulty after.log ∨ reported held = .error error)) (Holding held Unrenamed) := by
  refine ((spec_readBytes quiet_fresh h.resting .wal maxWalBytes).weaken_crash
    fun _ => Holding.unrenamed).attempt ?_
  rintro result after ⟨hstate, hlog, hres⟩
  have hafter := h.of_state hstate hlog
  rcases hres with hres | ⟨rfl, hfaulty⟩
  · cases hwal : world.state.wal with
    | none =>
      rw [Disk.get, hwal] at hres
      cases hres
      refine .done hafter.unrenamed.stoppable ⟨hafter, by rw [hstate, hwal], by rw [hstate]⟩
    | some bytes =>
      rw [Disk.get, hwal, fetch] at hres
      cases hbdd : bounded bytes maxWalBytes with
      | error cause =>
        rw [hbdd] at hres
        cases hres
        refine .done hafter.unrenamed.stoppable ⟨hafter.unrenamed, .inr ?_⟩
        rw [← h.view, Disk.view, hwal]
        change reported (world.state.viewWal bytes) = _
        rw [Disk.viewWal, hbdd]
        rfl
      | ok value =>
        rw [hbdd] at hres
        cases hres
        obtain ⟨rfl, hle⟩ := bounded_eq_ok hbdd
        refine ((spec_applyWal quiet_fresh hafter (hstate ▸ hwal) hle).weaken_crash
          fun _ => Holding.unrenamed).bind ?_ ?_
        · intro _ checkpointed hckpt
          have hfresh := hckpt.holding.log
          refine (spec_removeWal hckpt (fun _ h => h.1)
            (not_renamed_performed hfresh.1 (by simp)) (not_renamed_failed hfresh.1)).bind ?_ ?_
          · rintro _ removed ⟨hrem, rfl⟩
            refine .done hrem.stoppable ⟨⟨hrem.clean, hrem.view, hrem.log,
                not_unremoved_performed hfresh.2⟩, rfl, ?_⟩
            exact hckpt.backup.trans (by rw [hstate])
          · rintro _ kept ⟨hkept, rfl⟩
            exact ⟨hkept, .inl ⟨_, mem_cons_self⟩⟩
        · intro error broken hbroken
          exact ⟨hbroken.1.holding.unrenamed, hbroken.2⟩
  · exact .done hafter.unrenamed.stoppable ⟨hafter.unrenamed, .inl hfaulty⟩

/-! ## Loads -/

def snapshotOf (content : Option Bytes) : Except Error Snapshot :=
  match content with
  | none => .error .notFound
  | some bytes => reported (readable bytes)

theorem spec_readSnapshot {crash : World Disk Operation → Prop} (hquiet : Quiet property)
    (h : Resting property crash world) (file : Name) :
    Spec environment (readSnapshot file) world
      (Answers property world (snapshotOf (world.state.get file))) crash := by
  have hsnapshot : ∀ content, snapshotOf content =
      fetch content maxFileBytes >>= fun bytes => (decode bytes).mapError .invalid := by
    intro content
    cases content with
    | none => rfl
    | some bytes =>
      rw [snapshotOf, reported, readable, fetch]
      cases bounded bytes maxFileBytes <;> rfl
  rw [hsnapshot]
  exact spec_answers_checked h (spec_readBytes hquiet h file maxFileBytes)

/-- What holds after a load: the view is kept, and without failures it is returned. -/
def Loaded (held : Except Invalid Snapshot) (result : Except Error Snapshot)
    (world : World Disk Operation) : Prop :=
  Holding held Unrenamed world ∧ (Faulty world.log ∨ result = reported held)

/-- The backup takes the place of a missing store file. -/
theorem spec_renameBackup (h : Holding (.ok snapshot) Unrenamed world)
    (hwal : world.state.wal = none) (hbackup : world.state.backup = some bytes)
    (hreadable : readable bytes = .ok snapshot) :
    Spec environment (perform (.rename .backup .store)) world
      (onResult (fun _ => Holding (.ok snapshot) Unrenamed)
        fun _ after => Holding (.ok snapshot) Unrenamed after ∧ Faulty after.log)
      (Holding (.ok snapshot) Unrenamed) := by
  have heffect : (Operation.rename .backup .store).effect world.state =
      (.ok [], (world.state.set .backup none).set .store (some bytes)) := by
    simp only [Operation.effect, Disk.get, hbackup]
  have hafter : Holding (.ok snapshot) Unrenamed
      ⟨(world.state.set .backup none).set .store (some bytes),
        .performed (.rename .backup .store) :: world.log⟩ := by
    refine ⟨.inl ⟨rfl, rfl⟩, ?_, not_renamed_performed h.log (by simp)⟩
    simp only [Disk.view, Disk.set, hwal, hreadable]
  refine .perform Holding.stoppable h heffect ⟨hafter, hafter⟩ ?_
  rintro state rfl
  have hkept : Holding (.ok snapshot) Unrenamed
      ⟨world.state, .failed (.rename .backup .store) :: world.log⟩ :=
    ⟨h.clean, h.view, not_renamed_failed h.log⟩
  exact ⟨hkept, hkept, _, mem_cons_self⟩

theorem spec_loadBackup (h : Holding held Unrenamed world) (hwal : world.state.wal = none)
    (hstore : world.state.store = none) (hbackup : world.state.backup = some bytes) :
    Spec environment (loadBackup .notFound) world (Loaded held) (Holding held Unrenamed) := by
  have hheld : held = Disk.viewBackup bytes := by
    rw [← h.view, Disk.view, hwal, hstore, hbackup]
  refine (spec_readSnapshot quiet_unrenamed h.resting .backup).attempt ?_
  rintro result after ⟨hstate, hlog, hres⟩
  have hafter := h.of_state hstate hlog
  rcases hres with hres | ⟨rfl, hfaulty⟩
  · rw [Disk.get, hbackup, snapshotOf] at hres
    rw [Disk.viewBackup] at hheld
    cases hreadable : readable bytes with
    | error cause =>
      rw [hreadable] at hres hheld
      cases hres
      exact .done hafter.stoppable ⟨hafter, .inr (by rw [hheld]; rfl)⟩
    | ok snapshot =>
      rw [hreadable] at hres hheld
      cases hres
      cases hheld
      refine (spec_renameBackup hafter (hstate ▸ hwal) (hstate ▸ hbackup) hreadable).bind ?_ ?_
      · exact fun _ renamed hren => .done hren.stoppable ⟨hren, .inr rfl⟩
      · exact fun _ kept hkept => ⟨hkept.1, .inl hkept.2⟩
  · exact .done hafter.stoppable ⟨hafter, .inl hfaulty⟩

theorem spec_load (h : Holding held Fresh world) :
    Spec environment (load (.ok true)) world (Loaded held) (Holding held Unrenamed) := by
  refine (spec_recoverWal h).bind ?_ ?_
  · rintro _ recovered ⟨hfresh, hwal, -⟩
    have hrecov := hfresh.unrenamed
    refine (spec_readSnapshot quiet_unrenamed hrecov.resting .store).attempt ?_
    rintro result after ⟨hstate, hlog, hres⟩
    have hafter := hrecov.of_state hstate hlog
    rcases hres with hres | ⟨rfl, hfaulty⟩
    · cases hstore : recovered.state.store with
      | some bytes =>
        have hheld : held = readable bytes := by
          rw [← hrecov.view, Disk.view, hwal, hstore]
        rw [Disk.get, hstore, snapshotOf, ← hheld] at hres
        subst hres
        cases held with
        | ok snapshot | error cause => exact .done hafter.stoppable ⟨hafter, .inr rfl⟩
      | none =>
        rw [Disk.get, hstore] at hres
        subst hres
        refine (spec_unchanged quiet_unrenamed hafter.resting (.isFile .backup)
          ⟨by simp, by simp⟩ rfl fun _ h => h).attempt ?_
        rintro present asked ⟨hasked, hlog, hpresent⟩
        have hsame := hasked.trans hstate
        have hholding := hafter.of_state hasked hlog
        rcases hpresent with hpresent | ⟨rfl, hfaulty⟩
        · cases hbackup : recovered.state.backup with
          | some bytes =>
            have hone : present = .ok [1] := by
              rw [hpresent]
              simp only [Operation.effect, Disk.get, hstate, hbackup, Option.isSome_some, if_true]
            rw [if_pos hone]
            exact spec_loadBackup hholding (hsame ▸ hwal) (hsame ▸ hstore) (hsame ▸ hbackup)
          | none =>
            have hzero : present = .ok [0] := by
              rw [hpresent]
              simp [Operation.effect, Disk.get, hstate, hbackup]
            rw [if_neg (by rw [hzero]; decide)]
            have hheld : held = .ok .empty := by
              rw [← hrecov.view, Disk.view, hwal, hstore, hbackup]
            exact .done hholding.stoppable ⟨hholding, .inr (by rw [hheld]; rfl)⟩
        · exact .done hholding.stoppable ⟨hholding, .inl hfaulty⟩
    · exact .done hafter.stoppable ⟨hafter, .inl hfaulty⟩
  · exact fun _ broken hbroken => ⟨hbroken.1, hbroken.2.imp_right Eq.symm⟩

/-! ## Commits -/

/-- What a store holds once the snapshot is published. -/
def published (snapshot : Snapshot) (view : Except Invalid Snapshot) : Prop :=
  (snapshot.Admitted → view = .ok ⟨inNameOrder snapshot.tables⟩) ∧
    (¬ snapshot.Admitted → ∃ cause, view = .error cause)

theorem currentGeneration_of_header {payload : Bytes} {generation : UInt64} {pageCount : Nat}
    (hlen : pageSize ≤ bytes.length)
    (h : slice bytes 0 pageSize = headerPage version generation payload pageCount) :
    currentGeneration bytes = generation.toNat := by
  have hread {start length : Nat} (hle : start + length ≤ pageSize) : slice bytes start length =
        slice (headerPage version generation payload pageCount) start length := by
    rw [← h, slice_slice bytes hle, Nat.zero_add]
  obtain ⟨hversion, -, hgen, -⟩ := headerPage_number version generation payload pageCount
  have hmagic := (hread (by decide)).trans (headerPage_magic version generation payload pageCount)
  have hversion := readU32_of_slice ((hread (by decide)).trans hversion) (by decide)
  rw [currentGeneration, if_pos ⟨hlen, hmagic, hversion⟩]
  exact readU64_of_checksum ((hread (by decide)).trans hgen)

section

variable {old new payload : Bytes} {generation : UInt64}

theorem slice_header_pagesOf (generation : UInt64) (payload : Bytes) :
    slice (pagesOf version generation payload) 0 pageSize =
      headerPage version generation payload (dataPageCount payload + 1) :=
  slice_start _ _ (length_headerPage _ _ _ _)

theorem commit_page_logged (hgen : generation.toNat = currentGeneration old + 1) :
    0 ∈ (walRecords old (pagesOf version generation payload)).map Prod.fst := by
  refine mem_map.mpr ⟨(0, slice (pagesOf version generation payload) 0 pageSize), ?_, rfl⟩
  refine mem_walRecords.mpr ⟨?_, by rw [Nat.zero_mul], fun hsame => ?_⟩
  · rw [length_pagesOf, Nat.mul_div_cancel _ (by decide)]
    exact Nat.succ_pos _
  · unfold pageOf at hsame
    split_ifs at hsame with hlen
    rw [Nat.zero_mul, slice_header_pagesOf] at hsame
    rw [Nat.one_mul] at hlen
    have hsame := currentGeneration_of_header hlen (Option.some.inj hsame)
    omega

theorem check_commitWal
    (h : encodePages snapshot generation = .ok (pagesOf version generation payload)) :
    published snapshot ((commitWal old (pagesOf version generation payload) generation).check
      (pagesOf version generation payload)) := by
  have hlen := length_pagesOf version generation payload
  have hcur : (currentGeneration (pagesOf version generation payload) ==
      (commitWal old (pagesOf version generation payload) generation).generation) = true :=
    beq_iff_eq.mpr (currentGeneration_of_header
      (by rw [hlen]; exact Nat.le_mul_of_pos_left _ (Nat.succ_pos _))
      (slice_header_pagesOf generation payload))
  obtain ⟨hreads, hfails⟩ := decode_encoded h
  unfold Wal.check
  rw [ensure_pass hcur]
  constructor
  · intro hadm
    rw [hreads hadm]
  · intro hnot
    obtain ⟨error, herror⟩ := hfails hnot
    rw [herror]
    exact ⟨_, rfl⟩

end

/-- The log of a commit is read back. -/
theorem readWal_commitLog {old : Bytes} (h : commitLog old snapshot = .ok bytes) :
    ∃ payload generation, generation.toNat = currentGeneration old + 1 ∧
      encodePages snapshot generation = .ok (pagesOf version generation payload) ∧
      readWal bytes = .ok (commitWal old (pagesOf version generation payload) generation) := by
  obtain ⟨hlimit, h⟩ := ensure_bind_ok h
  obtain ⟨new, hnew, h⟩ := bind_eq_ok h
  have hgen : (UInt64.ofNat (currentGeneration old + 1)).toNat =
      currentGeneration old + 1 := UInt64.toNat_ofNat_of_lt' (of_decide_eq_true hlimit)
  generalize UInt64.ofNat (currentGeneration old + 1) = generation at *
  obtain ⟨payload, hpay, hcount, rfl⟩ := encodePagesVersion_eq_ok hnew
  have hpages : (pagesOf version generation payload).length / pageSize =
      dataPageCount payload + 1 := by
    rw [length_pagesOf, Nat.mul_div_cancel _ (by decide)]
  exact ⟨payload, generation, hgen, hnew, readWal_encodeWal h
    (by rw [hpages]; exact Nat.succ_le_succ (dataPageCount_pos payload))
    (by rwa [hpages]) (commit_page_logged hgen)⟩

theorem committed_pagesOf (old : Bytes) (generation : UInt64) (payload : Bytes) :
    (commitWal old (pagesOf version generation payload) generation).committed old =
      pagesOf version generation payload :=
  committed_commitWal (by rw [length_pagesOf]; exact Nat.dvd_mul_left _ _)

/-- The log of a commit, over the file it replaces, holds the snapshot. -/
theorem commitLog_published {disk : Disk} {snapshot : Snapshot} {bytes : Bytes}
    (h : commitLog disk.content snapshot = .ok bytes)
    (hbdd : disk.content.length ≤ maxFileBytes) (hwal : disk.wal = some bytes) :
    bytes.length ≤ maxWalBytes ∧ published snapshot disk.view := by
  obtain ⟨payload, generation, -, hnew, hread⟩ := readWal_commitLog h
  refine ⟨readWal_length hread, ?_⟩
  have hview : disk.view = (commitWal disk.content (pagesOf version generation payload)
      generation).check (pagesOf version generation payload) := by
    rw [Disk.view, hwal]
    dsimp only
    rw [Disk.viewWal, bounded_ok (readWal_length hread), ok_bind, hread, ok_bind,
      bounded_ok hbdd, ok_bind, committed_pagesOf]
  rw [hview]
  exact check_commitWal hnew

/-- The states in which a commit may be stopped: before or after its commit point. -/
def Committing (held : Except Invalid Snapshot) (snapshot : Snapshot)
    (world : World Disk Operation) : Prop :=
  Holding held Unrenamed world ∨ ∃ next, published snapshot next ∧ Holding next Renamed world

theorem Committing.stoppable (world : World Disk Operation) (h : Committing held snapshot world) :
    Stoppable environment world (Committing held snapshot) := by
  intro state hleft
  rcases h with h | ⟨next, hpub, h⟩
  · exact .inl (h.stoppable world state hleft)
  · exact .inr ⟨next, hpub, h.stoppable world state hleft⟩

/-- The commit point is passed, and the log could be removed so far. -/
def Durable (log : Log) : Prop := Renamed log ∧ ¬ Unremoved log

theorem quiet_durable : Quiet Durable where
  performed _ _ h _ := ⟨mem_cons_of_mem _ h.1, not_unremoved_performed h.2⟩
  failed _ _ h hsilent := ⟨mem_cons_of_mem _ h.1, not_unremoved_failed h.2 hsilent.2⟩

theorem Holding.renamed (h : Holding held Durable world) : Holding held Renamed world :=
  h.weaken fun _ h => h.1

/-- What a commit reports and what it leaves. -/
def Committed (held : Except Invalid Snapshot) (snapshot : Snapshot) :
    Except Error Unit → World Disk Operation → Prop :=
  onResult
    (fun _ after => ∃ next, published snapshot next ∧ Holding next Durable after)
    fun _ after => Holding held Unrenamed after ∨
      ∃ next, published snapshot next ∧ Holding next Renamed after ∧ Unremoved after.log

theorem Holding.setTemporary (h : Holding held property world) (content : Option Bytes)
    (hlog : property log) : Holding held property ⟨world.state.set .temporary content, log⟩ := by
  refine ⟨?_, (Disk.view_congr rfl rfl rfl).trans h.view, hlog⟩
  rcases h.clean with hset | ⟨bytes, wal, hreplay⟩
  · exact .inl ⟨hset.durable, hset.dirty⟩
  · exact .inr ⟨bytes, wal, hreplay.log, hreplay.read, hreplay.bounded,
      hreplay.between, hreplay.dirty⟩

section

variable {held : Except Invalid Snapshot} {snapshot : Snapshot} {world : World Disk Operation}
  {next : Except Invalid Snapshot}

omit snapshot in
theorem spec_remove (hquiet : Quiet property) (h : Holding held property world) (file : Name)
    (hsilent : (Operation.remove file).Silent)
    (hset : ∀ log, property log → Holding held property ⟨world.state.set file none, log⟩) :
    Spec environment (perform (.remove file)) world (fun _ => Holding held property)
      (Holding held property) := by
  have hperf : Holding held property ⟨((Operation.remove file).effect world.state).2,
      .performed (.remove file) :: world.log⟩ := by
    have hlog := hquiet.performed _ _ h.log hsilent
    rw [Operation.effect_remove]
    split_ifs
    · exact hset _ hlog
    · exact h.of_state rfl hlog
  refine .perform Holding.stoppable h rfl ⟨hperf, hperf⟩ ?_
  rintro state rfl
  have hkept : Holding held property ⟨world.state, .failed (.remove file) :: world.log⟩ :=
    ⟨h.clean, h.view, hquiet.failed _ _ h.log hsilent⟩
  exact ⟨hkept, hkept⟩

theorem spec_removeBackup (h : Holding next Durable world) (hwal : world.state.wal = none)
    {image : Bytes} (hstore : world.state.store = some image) (hreadable : readable image = next) :
    Spec environment (perform (.remove .backup)) world (fun _ => Holding next Durable)
      (Holding next Durable) := by
  refine spec_remove quiet_durable h .backup ⟨by simp, by simp⟩ fun log hlog =>
    ⟨.inl ⟨(h.clean.settled hwal).durable, (h.clean.settled hwal).dirty⟩, ?_, hlog⟩
  simp only [Disk.view, Disk.set, hwal, hstore, hreadable]

/-- After the commit point only the removal of the log can make the commit fail. -/
theorem spec_finish (hpub : published snapshot next) (h : Holding next Durable world)
    (hwal : world.state.wal = some bytes) (hlen : bytes.length ≤ maxWalBytes) :
    Spec environment (finish bytes) world (Committed held snapshot) (Committing held snapshot) := by
  have hcrash {world : World Disk Operation} (h : Holding next Renamed world) :
      Committing held snapshot world := .inr ⟨next, hpub, h⟩
  refine ((spec_applyWal quiet_durable h hwal hlen).weaken_crash
    fun _ h => hcrash h.renamed).attempt ?_
  intro result applied happlied
  cases result with
  | error error =>
    exact .done ((hcrash happlied.1.holding.renamed).stoppable _) ⟨next, hpub, happlied.1.holding⟩
  | ok _ =>
    have hlog := happlied.holding.log
    obtain ⟨image, hstore, hreadable⟩ := happlied.readable
    refine ((spec_removeWal happlied (fun _ h => h.1) (mem_cons_of_mem _ hlog.1)
      (mem_cons_of_mem _ hlog.1)).weaken_crash fun _ => hcrash).bind ?_ ?_
    · rintro _ removed ⟨hrem, rfl⟩
      have hholding : Holding next Durable
          ⟨applied.state.set .wal none, .performed (.remove .wal) :: applied.log⟩ :=
        ⟨hrem.clean, hrem.view, hrem.log, not_unremoved_performed hlog.2⟩
      refine ((spec_removeBackup hholding rfl hstore hreadable).weaken_crash
        fun _ h => hcrash h.renamed).attempt fun _ after hafter => ?_
      exact .done ((hcrash hafter.renamed).stoppable _) ⟨next, hpub, hafter⟩
    · rintro _ kept ⟨hkept, rfl⟩
      exact .inr ⟨next, hpub, hkept, mem_cons_self⟩

/-- The renaming of the log is the commit point. -/
theorem spec_renameTemporary (h : Holding held Fresh world)
    (htemporary : world.state.temporary = some bytes) (hwal : world.state.wal = none)
    (hlog : commitLog world.state.content snapshot = .ok bytes)
    (hbdd : world.state.content.length ≤ maxFileBytes) :
    Spec environment (perform (.rename .temporary .wal)) world
      (onResult
        (fun _ after => ∃ next, published snapshot next ∧ Holding next Durable after ∧
          after.state.wal = some bytes ∧ bytes.length ≤ maxWalBytes)
        fun _ => Holding held Unrenamed)
      (Committing held snapshot) := by
  have hset := h.clean.settled hwal
  have heffect : (Operation.rename .temporary .wal).effect world.state =
      (.ok [], (world.state.set .temporary none).set .wal (some bytes)) := by
    simp only [Operation.effect, Disk.get, htemporary]
  obtain ⟨hlen, hpub⟩ := @commitLog_published
    ((world.state.set .temporary none).set .wal (some bytes)) snapshot bytes hlog hbdd rfl
  have hafter : Holding ((world.state.set .temporary none).set .wal (some bytes)).view Durable
      ⟨(world.state.set .temporary none).set .wal (some bytes),
        .performed (.rename .temporary .wal) :: world.log⟩ :=
    ⟨.inl ⟨hset.durable, hset.dirty⟩, rfl, mem_cons_self, not_unremoved_performed h.log.2⟩
  refine .perform Committing.stoppable (.inl h.unrenamed) heffect
    ⟨.inr ⟨_, hpub, hafter.renamed⟩, _, hpub, hafter, rfl, hlen⟩ ?_
  rintro state rfl
  have hkept : Holding held Unrenamed
      ⟨world.state, .failed (.rename .temporary .wal) :: world.log⟩ :=
    ⟨h.clean, h.view, not_renamed_failed h.log.1⟩
  exact ⟨.inl hkept, hkept⟩

/-- An operation on the temporary file. -/
theorem spec_temporary (h : Holding held Fresh world) (operation : Operation)
    (hsilent : operation.Silent) (content : Option Bytes)
    (heffect : operation.effect world.state = (.ok [], world.state.set .temporary content))
    (hdamage : ∀ state, operation.damage world.state state →
      ∃ torn, state = world.state.set .temporary torn) :
    Spec environment (perform operation) world
      (onResult
        (fun _ after => Holding held Fresh after ∧
          after.state = world.state.set .temporary content)
        fun _ => Holding held Fresh)
      (Holding held Fresh) := by
  have hperf := h.setTemporary content (quiet_fresh.performed world.log operation h.log hsilent)
  refine .perform Holding.stoppable h heffect ⟨hperf, hperf, rfl⟩ ?_
  intro state hstate
  obtain ⟨torn, rfl⟩ := hdamage state hstate
  have hfailed := h.setTemporary torn (quiet_fresh.failed world.log operation h.log hsilent)
  exact ⟨hfailed, hfailed⟩

theorem spec_publish (h : Holding held Fresh world) (hwal : world.state.wal = none)
    (hlog : commitLog world.state.content snapshot = .ok bytes)
    (hbdd : world.state.content.length ≤ maxFileBytes) :
    Spec environment (publish bytes) world (Committed held snapshot)
      (Committing held snapshot) := by
  have hcrash {world : World Disk Operation} (h : Holding held Fresh world) :
      Committing held snapshot world := .inl h.unrenamed
  refine ((spec_temporary h .createTemporary ⟨by simp, by simp⟩ (some []) rfl
    fun state hstate => ⟨world.state.temporary, hstate⟩).weaken_crash fun _ => hcrash).bind ?_
      fun _ _ h => .inl h.unrenamed
  rintro _ created ⟨hcreated, hstate⟩
  refine ((spec_temporary hcreated (.writeTemporary bytes) ⟨by simp, by simp⟩ (some bytes)
    (by rw [hstate]; rfl) fun state ⟨written, hwritten⟩ => ⟨_, hwritten⟩).weaken_crash
      fun _ => hcrash).bind ?_ fun _ _ h => .inl h.unrenamed
  rintro _ written ⟨hwritten, hstate'⟩
  refine ((spec_temporary hwritten .syncTemporary ⟨by simp, by simp⟩ (some bytes)
    (by rw [hstate']; rfl) fun state hsame => ⟨written.state.temporary, hsame⟩).weaken_crash
      fun _ => hcrash).bind ?_ fun _ _ h => .inl h.unrenamed
  rintro _ synced ⟨hsynced, hstate''⟩
  have hsame : synced.state = world.state.set .temporary (some bytes) := by
    rw [hstate'', hstate', hstate]
    rfl
  refine (spec_renameTemporary hsynced (by rw [hsame]; rfl) (by rw [hsame]; exact hwal)
    (by rw [hsame]; exact hlog) (by rw [hsame]; exact hbdd)).bind ?_ fun _ _ h => .inl h
  rintro _ renamed ⟨next, hpub, hholding, hren, hlen⟩
  refine ((spec_unchanged quiet_durable hholding.resting .syncDirectory ⟨by simp, by simp⟩ rfl
    fun _ h => h).weaken_crash fun _ h =>
      .inr ⟨next, hpub, h.renamed⟩).attempt ?_
  rintro _ after ⟨hsame, hafter, -⟩
  exact spec_finish hpub (hholding.of_state hsame hafter) (hsame ▸ hren) hlen

theorem spec_removeTemporary (hquiet : Quiet property) (h : Holding held property world) :
    Spec environment (perform (.remove .temporary)) world (fun _ => Holding held property)
      (Holding held property) :=
  spec_remove hquiet h .temporary ⟨by simp, by simp⟩ fun _ hlog => h.setTemporary none hlog

theorem quiet_unremoved : Quiet fun log => Renamed log ∧ Unremoved log where
  performed _ _ h _ := ⟨mem_cons_of_mem _ h.1, mem_cons_of_mem _ h.2⟩
  failed _ _ h _ := ⟨mem_cons_of_mem _ h.1, mem_cons_of_mem _ h.2⟩

theorem spec_commit (h : Holding held Fresh world) :
    Spec environment (commit (.ok true) snapshot) world (Committed held snapshot)
      (Committing held snapshot) := by
  have hcrash {world : World Disk Operation} (h : Holding held Unrenamed world) :
      Committing held snapshot world := .inl h
  refine ((spec_recoverWal h).weaken_crash fun _ => hcrash).bind ?_ fun _ _ h => .inl h.1
  rintro _ recovered ⟨hrecov, hwal, -⟩
  refine ((spec_unchanged quiet_fresh hrecov.resting .createDirectory ⟨by simp, by simp⟩ rfl
    fun _ h => h).weaken_crash fun _ h => hcrash h.unrenamed).bind ?_
      fun _ _ ⟨hstate, hlog, _⟩ => .inl (hrecov.of_state hstate hlog).unrenamed
  rintro _ created ⟨hstate, hlog, -⟩
  have hcreated := hrecov.of_state hstate hlog
  refine ((spec_readStore quiet_fresh hcreated.resting).weaken_crash
      fun _ h => hcrash h.unrenamed).bind ?_
      fun _ _ ⟨hstate, hlog, _⟩ => .inl (hcreated.of_state hstate hlog).unrenamed
  rintro old read ⟨hstate', hlog', hold⟩
  have hread := hcreated.of_state hstate' hlog'
  have hcont : old = read.state.content ∧ read.state.content.length ≤ maxFileBytes := by
    rcases hold with hold | ⟨hold, -⟩
    · cases hbdd : bounded created.state.content maxFileBytes with
      | error cause => rw [hbdd] at hold; cases hold
      | ok value =>
        rw [hbdd] at hold
        cases hold
        rw [hstate']
        exact bounded_eq_ok hbdd
    · cases hold
  obtain ⟨rfl, hbdd⟩ := hcont
  refine .lift ((hcrash hread.unrenamed).stoppable _) ?_ fun _ _ => .inl hread.unrenamed
  intro bytes hbytes
  have hbytes : commitLog read.state.content snapshot = .ok bytes := by
    cases hlog : commitLog read.state.content snapshot with
    | ok value => rw [hlog] at hbytes; cases hbytes; rfl
    | error cause => rw [hlog] at hbytes; cases hbytes
  refine (spec_publish hread (by rw [hstate', hstate, hwal]) hbytes hbdd).attempt ?_
  intro result after hafter
  cases result with
  | ok _ =>
    obtain ⟨next, hpub, hholding⟩ := hafter
    have hstop : Committing held snapshot after := .inr ⟨next, hpub, hholding.renamed⟩
    exact .done (hstop.stoppable _) ⟨next, hpub, hholding⟩
  | error error =>
    rcases hafter with hkept | ⟨next, hpub, hholding, hunremoved⟩
    · refine ((spec_removeTemporary quiet_unrenamed hkept).weaken_crash
        fun _ => hcrash).attempt fun _ final hfinal => ?_
      exact .done ((hcrash hfinal).stoppable _) (.inl hfinal)
    · have hafter : Holding next (fun log => Renamed log ∧ Unremoved log) after :=
        ⟨hholding.clean, hholding.view, hholding.log, hunremoved⟩
      have hstop {world : World Disk Operation}
          (h : Holding next (fun log => Renamed log ∧ Unremoved log) world) :
          Committing held snapshot world := .inr ⟨next, hpub, h.weaken fun _ h => h.1⟩
      refine ((spec_removeTemporary quiet_unremoved hafter).weaken_crash
        fun _ => hstop).attempt fun _ final hfinal => ?_
      exact .done ((hstop hfinal).stoppable _) (.inr ⟨next, hpub,
        hfinal.weaken fun _ h => h.1, hfinal.log.2⟩)

end

end Disp.Store

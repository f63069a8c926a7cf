import Disp.Store.Commit
import Mathlib.Logic.Relation

/-!
# Durability

The store over whole runs: commits and loads in any order, with operations that fail and
crashes anywhere.  What a load returns is decided by the last commit whose log was renamed.
-/

namespace Disp.Store

open Library.Codec Library.Interaction List

open Program (perform lift)

variable {disk : Disk} {world : World Disk Operation} {snapshot : Snapshot}
  {result : Option (Except Error Unit)} {after : Disk} {bytes : Bytes}

/-! ## Runs of the store -/

def loaded (disk : Disk) : Except Error Snapshot :=
  ((load (.ok true)).run environment (fun _ => false) ⟨disk, []⟩).1

/-- The disks that commits and loads may leave, finished or cut off, whatever files they
started from. -/
inductive Reachable : Disk → Prop where
  | start {disk : Disk} : disk.durable = disk.store → disk.dirty = [] → Reachable disk
  | commit {disk : Disk} {snapshot : Snapshot} {result : Option (Except Error Unit)}
      {world : World Disk Operation} : Reachable disk →
      Run environment (commit (.ok true) snapshot) ⟨disk, []⟩ result world →
      Reachable world.state
  | load {disk : Disk} {result : Option (Except Error Snapshot)}
      {world : World Disk Operation} : Reachable disk →
      Run environment (load (.ok true)) ⟨disk, []⟩ result world → Reachable world.state

theorem fresh_nil : Fresh [] := ⟨not_mem_nil, not_mem_nil⟩

theorem Disk.Clean.holding (h : disk.Clean) : Holding disk.view Fresh ⟨disk, []⟩ :=
  ⟨h, rfl, fresh_nil⟩

theorem load_keeps (h : disk.Clean) {result : Option (Except Error Snapshot)}
    (hrun : Run environment (load (.ok true)) ⟨disk, []⟩ result world) :
    world.state.Clean ∧ world.state.view = disk.view := by
  have hspec := spec_load h.holding result world hrun
  cases result with
  | none => exact ⟨hspec.clean, hspec.view⟩
  | some result => exact ⟨hspec.1.clean, hspec.1.view⟩

/-- A commit keeps the view before its commit point and publishes the snapshot after it. -/
theorem commit_view (h : disk.Clean)
    (hrun : Run environment (commit (.ok true) snapshot) ⟨disk, []⟩ result world) :
    world.state.Clean ∧ (¬ Renamed world.log → world.state.view = disk.view) ∧
      (Renamed world.log → published snapshot world.state.view) := by
  have hspec := spec_commit h.holding result world hrun
  have hcommitting : Committing disk.view snapshot world := by
    match result with
    | none => exact hspec
    | some (.ok _) =>
      obtain ⟨next, hpub, h⟩ := hspec
      exact .inr ⟨next, hpub, h.renamed⟩
    | some (.error _) =>
      rcases hspec with h | ⟨next, hpub, h, _⟩
      · exact .inl h
      · exact .inr ⟨next, hpub, h⟩
  rcases hcommitting with h | ⟨next, hpub, h⟩
  · exact ⟨h.clean, fun _ => h.view, fun hren => absurd hren h.log⟩
  · exact ⟨h.clean, fun hren => absurd h.log hren, fun _ => h.view ▸ hpub⟩

theorem Reachable.clean (h : Reachable disk) : disk.Clean := by
  induction h with
  | start hdurable hdirty => exact .inl ⟨hdurable, hdirty⟩
  | commit _ hrun ih => exact (commit_view ih hrun).1
  | load _ hrun ih => exact (load_keeps ih hrun).1

theorem not_faulty_nil : ¬ Faulty [] := fun ⟨_, hmem⟩ => not_mem_nil hmem

theorem run_not_faulty {α : Type} (program : Io α) {world : World Disk Operation}
    (h : ¬ Faulty world.log) :
    ¬ Faulty (program.run environment (fun _ => false) world).2.log := by
  rintro ⟨operation, hfailed⟩
  rcases run_failed environment (fun _ => false) program hfailed with hmem | hmem
  · exact h ⟨operation, hmem⟩
  · cases hmem

theorem undisturbed {α : Type} (program : Io α) (world : World Disk Operation) :
    Run environment program world (some (program.run environment (fun _ => false) world).1)
      (program.run environment (fun _ => false) world).2 :=
  run_sound environment (fun _ => false) (fun _ _ h => (Bool.false_ne_true h).elim) program world

theorem loaded_eq (h : disk.Clean) : loaded disk = reported disk.view := by
  obtain ⟨_, hfaulty | hres⟩ := spec_load h.holding _ _ (undisturbed (load (.ok true)) ⟨disk, []⟩)
  · exact absurd hfaulty (run_not_faulty (load (.ok true)) not_faulty_nil)
  · exact hres

instance (log : Log) : Decidable (Renamed log) :=
  inferInstanceAs (Decidable (_ ∈ log))

instance (log : Log) : Decidable (Unremoved log) :=
  inferInstanceAs (Decidable (_ ∈ log))

/-- A run of the store: commits of admitted snapshots and loads, each finished or cut off,
with the last snapshot whose log was renamed. -/
inductive History : Disk → Option Snapshot → Disk → Prop where
  | start (disk : Disk) : History disk none disk
  | commit {first disk : Disk} {last : Option Snapshot} {snapshot : Snapshot}
      {result : Option (Except Error Unit)} {world : World Disk Operation} :
      History first last disk → snapshot.Admitted →
      Run environment (commit (.ok true) snapshot) ⟨disk, []⟩ result world →
      History first (if Renamed world.log then some snapshot else last) world.state
  | load {first disk : Disk} {last : Option Snapshot}
      {result : Option (Except Error Snapshot)} {world : World Disk Operation} :
      History first last disk →
      Run environment (load (.ok true)) ⟨disk, []⟩ result world →
      History first last world.state

theorem History.view {first : Disk} {last : Option Snapshot} (h : History first last disk)
    (hclean : first.Clean) :
    disk.Clean ∧ disk.view =
      last.elim first.view fun snapshot => .ok ⟨inNameOrder snapshot.tables⟩ := by
  induction h with
  | start => exact ⟨hclean, rfl⟩
  | commit _ hadm hrun ih =>
    obtain ⟨hdisk, hview⟩ := ih
    obtain ⟨hworld, hkept, hpub⟩ := commit_view hdisk hrun
    refine ⟨hworld, ?_⟩
    split_ifs with hren
    · exact (hpub hren).1 hadm
    · exact (hkept hren).trans hview
  | load _ hrun ih =>
    obtain ⟨hdisk, hview⟩ := ih
    obtain ⟨hworld, hkept⟩ := load_keeps hdisk hrun
    exact ⟨hworld, hkept.trans hview⟩

/-! ## Crashes -/

def CrashedLoads : Disk → Disk → Prop :=
  Relation.ReflTransGen fun disk after =>
    ∃ log, Run environment (load (.ok true)) ⟨disk, []⟩ none ⟨after, log⟩

theorem keeps_of_steps {step : Disk → Disk → Prop} (hclean : disk.Clean)
    (hstep : ∀ {disk after}, step disk after → disk.Clean → after.Clean ∧ after.view = disk.view)
    (h : Relation.ReflTransGen step disk after) : after.Clean ∧ after.view = disk.view := by
  induction h with
  | refl => exact ⟨hclean, rfl⟩
  | tail _ hlast ih =>
    obtain ⟨hmid, hview⟩ := hstep hlast ih.1
    exact ⟨hmid, hview.trans ih.2⟩

theorem CrashedLoads.keeps (h : CrashedLoads disk after) (hclean : disk.Clean) :
    after.Clean ∧ after.view = disk.view :=
  keeps_of_steps hclean (fun ⟨_, hrun⟩ hclean => load_keeps hclean hrun) h

/-- After a commit that was cut off anywhere, and any number of loads that were cut off too,
a load that succeeds returns the new snapshot if the log was renamed and the old one
otherwise; and it succeeds exactly when the new snapshot is not renamed into place with more
constraints than the decoder admits. -/
theorem load_after_crash {disk : Disk} (hreachable : Reachable disk) {stored : Snapshot}
    (hstored : loaded disk = .ok stored) {snapshot : Snapshot} {crashed : World Disk Operation}
    (hcrash : Run environment (commit (.ok true) snapshot) ⟨disk, []⟩ none crashed)
    {after : Disk} (hloads : CrashedLoads crashed.state after) :
    (∀ found, loaded after = .ok found →
        found = if Renamed crashed.log then ⟨inNameOrder snapshot.tables⟩ else stored) ∧
      ((∃ found, loaded after = .ok found) ↔ (Renamed crashed.log → snapshot.Admitted)) := by
  obtain ⟨hcrashed, hkept, hpub⟩ := commit_view hreachable.clean hcrash
  obtain ⟨hafter, hview⟩ := hloads.keeps hcrashed
  rw [loaded_eq hreachable.clean] at hstored
  rw [loaded_eq hafter, hview]
  split_ifs with hren
  · obtain ⟨hadm, hrefused⟩ := hpub hren
    by_cases h : snapshot.Admitted
    · rw [hadm h]
      refine ⟨fun found hfound => ?_, fun _ _ => h, fun _ => ⟨_, rfl⟩⟩
      cases hfound
      rfl
    · obtain ⟨cause, hcause⟩ := hrefused h
      rw [hcause]
      refine ⟨nofun, fun ⟨found, hfound⟩ => ?_, fun himp => absurd (himp hren) h⟩
      cases hfound
  · rw [hkept hren, hstored]
    refine ⟨fun found hfound => ?_, fun _ hren' => absurd hren' hren, fun _ => ⟨stored, rfl⟩⟩
    cases hfound
    rfl

def Disk.empty : Disk := ⟨none, none, [], none, none, none⟩

theorem loaded_empty : loaded .empty = .ok .empty := rfl

theorem reachable_empty : Reachable .empty := .start rfl rfl

theorem commitLog_ok {old new : Bytes} (hold : currentGeneration old = 0)
    (h : encodePages snapshot 1 = .ok new) : ∃ bytes, commitLog old snapshot = .ok bytes := by
  obtain ⟨payload, -, hcount, rfl⟩ := encodePagesVersion_eq_ok h
  obtain ⟨bytes, hbytes⟩ := @encodeWal_ok old (pagesOf version 1 payload) 1
    (by rwa [length_pagesOf, Nat.mul_div_cancel _ (by decide)])
  refine ⟨bytes, ?_⟩
  rw [commitLog, hold, ensure_pass (by decide), show UInt64.ofNat (0 + 1) = 1 from rfl, h, ok_bind,
    hbytes]

theorem currentGeneration_nil : currentGeneration [] = 0 := if_neg (by simp [pageSize])

def firstRenamed (bytes : Bytes) : World Disk Operation :=
  ⟨⟨none, none, [], some bytes, none, none⟩, [.performed (.rename .temporary .wal),
    .performed .syncTemporary, .performed (.writeTemporary bytes), .performed .createTemporary,
    .performed (.read .store), .performed .createDirectory, .performed (.read .wal)]⟩

theorem run_firstRenamed (h : commitLog [] snapshot = .ok bytes) (hrun : Run environment
      (((perform .syncDirectory).attempt.bind fun _ => finish bytes).attempt.bind fun
        | .ok _ => return ()
        | .error error => do
            let _ ← (perform (.remove .temporary)).attempt
            lift (.error error))
      (firstRenamed bytes) result world) :
    Run environment (commit (.ok true) snapshot) ⟨.empty, []⟩ result world := by
  refine .performed (.performed (.performed ?_))
  change Run environment ((checked (commitLog [] snapshot)).bind _) _ _ _
  rw [h]
  exact .performed (.performed (.performed (.performed hrun)))

theorem left_firstRenamed (bytes : Bytes) :
    environment.left (firstRenamed bytes).state (firstRenamed bytes).state :=
  ⟨rfl, rfl, rfl, rfl, rfl⟩

theorem cut_off_first_commit (h : commitLog [] snapshot = .ok bytes) :
    Run environment (commit (.ok true) snapshot) ⟨.empty, []⟩ none (firstRenamed bytes) :=
  run_firstRenamed h (.stopped _ (left_firstRenamed bytes))

theorem commitLog_sample : ∃ bytes, commitLog [] sample = .ok bytes := by
  have hok : (encodePages sample 1).isOk = true := by decide +kernel
  obtain ⟨new, hnew⟩ := eq_ok_of_isOk hok
  exact commitLog_ok currentGeneration_nil hnew

theorem sample_recovered :
    ∃ crashed, Run environment (commit (.ok true) sample) ⟨.empty, []⟩ none crashed ∧
      Renamed crashed.log ∧ loaded crashed.state = .ok ⟨inNameOrder sample.tables⟩ := by
  obtain ⟨bytes, hbytes⟩ := commitLog_sample
  have hcrash := cut_off_first_commit hbytes
  have hren : Renamed (firstRenamed bytes).log := mem_cons_self
  obtain ⟨hfound, hsucceeds⟩ := load_after_crash reachable_empty loaded_empty hcrash .refl
  obtain ⟨found, hload⟩ := hsucceeds.mpr fun _ => by decide +kernel
  refine ⟨firstRenamed bytes, hcrash, hren, ?_⟩
  rw [hload, hfound found hload, if_pos hren]

/-- After any run of commits and loads, with operations that fail and crashes anywhere, a load
returns the last snapshot whose log was renamed. -/
theorem loaded_after_history {first : Disk} {last : Option Snapshot}
    (h : History first last disk) (hdurable : first.durable = first.store)
    (hdirty : first.dirty = []) :
    loaded disk =
      last.elim (loaded first) fun snapshot => .ok ⟨inNameOrder snapshot.tables⟩ := by
  have hclean : first.Clean := .inl ⟨hdurable, hdirty⟩
  obtain ⟨hdisk, hview⟩ := h.view hclean
  rw [loaded_eq hdisk, loaded_eq hclean, hview]
  cases last <;> rfl

theorem sample_loaded_again :
    ∃ crashed, Run environment (commit (.ok true) sample) ⟨.empty, []⟩ none crashed ∧
      ∀ result world, Run environment (load (.ok true)) ⟨crashed.state, []⟩ result world →
        loaded world.state = .ok ⟨inNameOrder sample.tables⟩ := by
  obtain ⟨bytes, hbytes⟩ := commitLog_sample
  have hcrash := cut_off_first_commit hbytes
  refine ⟨firstRenamed bytes, hcrash, fun result world hload => ?_⟩
  have hhistory := ((History.start .empty).commit (by decide +kernel) hcrash).load hload
  exact loaded_after_history hhistory rfl rfl

/-- The log of a table with 4097 constraints is renamed into place, and after a crash the
store cannot be loaded any more. -/
theorem crowded_not_recovered :
    ∃ new crashed error, encodePages ⟨[crowdedTable 4097]⟩ 1 = .ok new ∧
      Run environment (commit (.ok true) ⟨[crowdedTable 4097]⟩) ⟨.empty, []⟩ none crashed ∧
      loaded .empty = .ok .empty ∧ loaded crashed.state = .error error := by
  obtain ⟨new, hnew⟩ := encodePages_crowded le_rfl 1
  obtain ⟨bytes, hbytes⟩ := commitLog_ok currentGeneration_nil hnew
  have hcrash := cut_off_first_commit hbytes
  obtain ⟨hclean, -, hpub⟩ := commit_view reachable_empty.clean hcrash
  obtain ⟨cause, hcause⟩ := (hpub mem_cons_self).2 (crowded_not_admitted (by decide))
  refine ⟨new, firstRenamed bytes, .invalid cause, hnew, hcrash, rfl, ?_⟩
  rw [loaded_eq hclean, hcause]
  rfl

/-! ## Failing operations -/

def LaterLoads : Disk → Disk → Prop :=
  Relation.ReflTransGen fun disk after =>
    ∃ result log, Run environment (load (.ok true)) ⟨disk, []⟩ (some result) ⟨after, log⟩

theorem LaterLoads.keeps (h : LaterLoads disk after) (hclean : disk.Clean) :
    after.Clean ∧ after.view = disk.view :=
  keeps_of_steps hclean (fun ⟨_, _, hrun⟩ hclean => load_keeps hclean hrun) h

/-- The outcome that a commit reports is the one that later loads see. -/
def OutcomeLaw (stored snapshot : Snapshot) (result : Except Error Unit) (disk : Disk) : Prop :=
  match result with
  | .ok _ => ∀ later, LaterLoads disk later →
      ∃ tables, loaded later = .ok ⟨tables⟩ ∧ tables.Perm snapshot.tables
  | .error _ => ∀ later, LaterLoads disk later → loaded later = .ok stored

theorem later_loads_iff (hclean : disk.Clean) (property : Except Error Snapshot → Prop) :
    (∀ later, LaterLoads disk later → property (loaded later)) ↔ property (reported disk.view) := by
  constructor
  · intro h
    have hnow := h disk .refl
    rwa [loaded_eq hclean] at hnow
  · intro h later hlater
    obtain ⟨hlaterClean, hview⟩ := hlater.keeps hclean
    rwa [loaded_eq hlaterClean, hview]

/-- The law holds exactly when the log is not renamed into place, or the new snapshot has no
more constraints than the decoder admits and the removal of the log does not fail, unless the
store held the new snapshot already. -/
theorem commit_outcome_iff {disk : Disk} (hreachable : Reachable disk) {stored : Snapshot}
    (hstored : loaded disk = .ok stored) {snapshot : Snapshot} {result : Except Error Unit}
    {world : World Disk Operation}
    (hrun : Run environment (commit (.ok true) snapshot) ⟨disk, []⟩ (some result) world) :
    OutcomeLaw stored snapshot result world.state ↔
      (Renamed world.log → snapshot.Admitted ∧
        (Unremoved world.log → stored = ⟨inNameOrder snapshot.tables⟩)) := by
  have hspec := spec_commit hreachable.clean.holding _ _ hrun
  obtain ⟨hclean, hkept, hpub⟩ := commit_view hreachable.clean hrun
  rw [loaded_eq hreachable.clean] at hstored
  cases result with
  | ok done =>
    -- A commit that reports success has passed its commit point.
    obtain ⟨_, _, hholding⟩ := hspec
    obtain ⟨hadm, hrefused⟩ := hpub hholding.log.1
    rw [OutcomeLaw, later_loads_iff hclean fun found =>
      ∃ tables, found = .ok ⟨tables⟩ ∧ tables.Perm snapshot.tables]
    constructor
    · rintro ⟨tables, hfound, _⟩ _
      refine ⟨by_contra fun hnot => ?_, fun hunremoved => absurd hunremoved hholding.log.2⟩
      obtain ⟨cause, hcause⟩ := hrefused hnot
      rw [hcause] at hfound
      cases hfound
    · intro h
      exact ⟨inNameOrder snapshot.tables, by rw [hadm (h hholding.log.1).1]; rfl,
        perm_insertionSort _ _⟩
  | error error =>
    rw [OutcomeLaw, later_loads_iff hclean fun found => found = .ok stored]
    rcases hspec with hholding | ⟨_, _, hholding, hunremoved⟩
    · rw [hkept hholding.log]
      exact ⟨fun _ hren => absurd hren hholding.log, fun _ => hstored⟩
    · -- The log was renamed but could not be removed: the snapshot is stored.
      obtain ⟨hadm, hrefused⟩ := hpub hholding.log
      constructor
      · intro hfound _
        have h : snapshot.Admitted := by_contra fun hnot => by
          obtain ⟨cause, hcause⟩ := hrefused hnot
          rw [hcause] at hfound
          cases hfound
        rw [hadm h] at hfound
        cases hfound
        exact ⟨h, fun _ => rfl⟩
      · intro h
        obtain ⟨h, hsame⟩ := h hholding.log
        rw [hadm h, hsame hunremoved]
        rfl

theorem sample_outcome :
    OutcomeLaw .empty sample
      ((commit (.ok true) sample).run environment (fun _ => false) ⟨.empty, []⟩).1
      ((commit (.ok true) sample).run environment (fun _ => false) ⟨.empty, []⟩).2.state := by
  have hrun := undisturbed (commit (.ok true) sample) ⟨.empty, []⟩
  have hfaultless := @run_not_faulty _ (commit (.ok true) sample) ⟨.empty, []⟩ not_faulty_nil
  generalize (commit (.ok true) sample).run environment (fun _ => false) ⟨.empty, []⟩ = outcome
    at *
  exact (commit_outcome_iff reachable_empty loaded_empty hrun).mpr fun _ =>
    ⟨by decide +kernel, fun hunremoved => absurd ⟨_, hunremoved⟩ hfaultless⟩

/-- The checkpoint of the first commit goes through. -/
theorem first_checkpoint {snapshot : Snapshot} (hadm : snapshot.Admitted) {bytes : Bytes}
    (h : commitLog [] snapshot = .ok bytes) {world : World Disk Operation}
    (hstate : world.state = (firstRenamed bytes).state) (hlog : Durable world.log)
    (hfaultless : ¬ Faulty world.log) :
    ∃ applied, Run environment (applyWal bytes) world (some (.ok ())) applied ∧
      Renamed applied.log ∧ ¬ Faulty applied.log := by
  obtain ⟨hlen, hpub⟩ :=
    @commitLog_published (firstRenamed bytes).state snapshot bytes h (Nat.zero_le _) rfl
  have hholding : Holding (.ok ⟨inNameOrder snapshot.tables⟩) Durable world :=
    ⟨.inl (by rw [hstate]; exact ⟨rfl, rfl⟩), by rw [hstate]; exact hpub.1 hadm, hlog⟩
  have hrun := undisturbed (applyWal bytes) world
  have hspec := spec_applyWal quiet_durable hholding (by rw [hstate]; rfl) hlen _ _ hrun
  have hfaultless := run_not_faulty (applyWal bytes) hfaultless
  generalize (applyWal bytes).run environment (fun _ => false) world = outcome at *
  obtain ⟨result, applied⟩ := outcome
  cases result with
  | ok done => exact ⟨applied, hrun, hspec.holding.log.1, hfaultless⟩
  | error error =>
    rcases hspec.2 with hfaulty | hreported
    · exact absurd hfaulty hfaultless
    · cases hreported

/-- Only the removal of the log fails: the commit reports an error, but the snapshot is
stored. -/
theorem failed_removal_reported :
    ∃ error world, Run environment (commit (.ok true) sample) ⟨.empty, []⟩
        (some (.error error)) world ∧
      (∀ operation, Event.failed operation ∈ world.log → operation = .remove .wal) ∧
      loaded .empty = .ok .empty ∧ loaded world.state = .ok ⟨inNameOrder sample.tables⟩ := by
  obtain ⟨bytes, hbytes⟩ := commitLog_sample
  have hadm : sample.Admitted := by decide +kernel
  obtain ⟨applied, hrun, hren, hfaultless⟩ := @first_checkpoint sample hadm bytes hbytes
    ⟨(firstRenamed bytes).state, .performed .syncDirectory :: (firstRenamed bytes).log⟩ rfl
    ⟨by simp [Renamed, firstRenamed], by simp [Unremoved, firstRenamed]⟩
    (by simp [Faulty, firstRenamed])
  have hcommit : Run environment (commit (.ok true) sample) ⟨.empty, []⟩ (some (.error .failed))
      ⟨((Operation.remove .temporary).effect applied.state).2,
        .performed (.remove .temporary) :: .failed (.remove .wal) :: applied.log⟩ := by
    have hfinish : Run environment (finish bytes) ⟨(firstRenamed bytes).state,
        .performed .syncDirectory :: (firstRenamed bytes).log⟩ (some (.error .failed))
        ⟨applied.state, .failed (.remove .wal) :: applied.log⟩ :=
      hrun.attempt rfl (.failed rfl (.done _ _))
    have hsynced : Run environment ((perform .syncDirectory).attempt.bind fun _ => finish bytes)
        (firstRenamed bytes) (some (.error .failed))
        ⟨applied.state, .failed (.remove .wal) :: applied.log⟩ := .performed hfinish
    exact run_firstRenamed hbytes (hsynced.attempt rfl (.performed (.done _ _)))
  obtain ⟨hclean, -, hpub⟩ := commit_view reachable_empty.clean hcommit
  refine ⟨.failed, _, hcommit, ?_, loaded_empty, ?_⟩
  · intro operation hfailed
    simp only [mem_cons, Event.failed.injEq, reduceCtorEq, false_or] at hfailed
    exact hfailed.resolve_right fun hmem => hfaultless ⟨operation, hmem⟩
  · have hview := (hpub (by simp [Renamed] at hren ⊢; exact hren)).1 hadm
    rw [loaded_eq hclean, hview]
    rfl

end Disp.Store

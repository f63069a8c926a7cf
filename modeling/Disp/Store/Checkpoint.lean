import Disp.Store.Recovery

/-!
# Checkpoints and recovery

Triples for the programs below a load and a commit.  Each keeps the view of the disk in
every state in which it may stop.
-/

namespace Disp.Store

open Library.Codec Library.Interaction List

open Program (perform lift attempt)

variable {held : Except Invalid Snapshot}

abbrev Log := List (Event Operation)

/-- The renaming of the log, the commit point, has happened. -/
def Renamed (log : Log) : Prop := Event.performed (.rename .temporary .wal) ∈ log

/-- The log could not be removed. -/
def Unremoved (log : Log) : Prop := Event.failed (.remove .wal) ∈ log

def Faulty (log : Log) : Prop := ∃ operation, Event.failed operation ∈ log

def Operation.Silent (operation : Operation) : Prop :=
  operation ≠ .rename .temporary .wal ∧ operation ≠ .remove .wal

/-- A property of logs that does not look at the operations other than the renaming and
the removal of the write-ahead log. -/
structure Quiet (property : Log → Prop) : Prop where
  performed : ∀ log operation, property log → operation.Silent →
    property (.performed operation :: log)
  failed : ∀ log operation, property log → operation.Silent →
    property (.failed operation :: log)

/-- The disk is clean and holds `held`. -/
structure Holding (held : Except Invalid Snapshot) (property : Log → Prop)
    (world : World Disk Operation) : Prop where
  clean : world.state.Clean
  view : world.state.view = held
  log : property world.log

variable {property : Log → Prop}

theorem Holding.stoppable (world : World Disk Operation) (h : Holding held property world) :
    Stoppable environment world (Holding held property) := by
  intro state hleft
  obtain ⟨hset, hview⟩ := h.clean.left hleft
  exact ⟨.inl hset, hview.trans h.view, h.log⟩

theorem Holding.of_state {world after : World Disk Operation} (h : Holding held property world)
    (hstate : after.state = world.state) (hlog : property after.log) :
    Holding held property after :=
  ⟨hstate ▸ h.clean, (congrArg Disk.view hstate).trans h.view, hlog⟩

/-- A program may stop wherever the disk is that of `world`. -/
structure Resting (property : Log → Prop) (crash : World Disk Operation → Prop)
    (world : World Disk Operation) : Prop where
  stoppable : ∀ world, crash world → Stoppable environment world crash
  same : ∀ {after}, after.state = world.state → property after.log → crash after
  log : property world.log

theorem Holding.resting {world : World Disk Operation} (h : Holding held property world) :
    Resting property (Holding held property) world :=
  ⟨Holding.stoppable, h.of_state, h.log⟩

/-- An answer that leaves the disk as it is: the expected one, or that of a failed operation. -/
def Answers (property : Log → Prop) (before : World Disk Operation) {α : Type}
    (expected result : Except Error α) (after : World Disk Operation) : Prop :=
  after.state = before.state ∧ property after.log ∧
    (result = expected ∨ result = .error .failed ∧ Faulty after.log)

section

variable {held : Except Invalid Snapshot} {property : Log → Prop} (hquiet : Quiet property)
  {world : World Disk Operation} {bytes : Bytes} {wal : Wal} {image : Bytes} {backup : Option Bytes}
  {crash : World Disk Operation → Prop}

include hquiet

/-! ## Reading -/

theorem spec_unchanged (h : Resting property crash world) (operation : Operation)
    (hsilent : operation.Silent) (heffect : (operation.effect world.state).2 = world.state)
    (hdamage : ∀ state, operation.damage world.state state → state = world.state) :
    Spec environment (perform operation) world
      (Answers property world (operation.effect world.state).1) crash := by
  have hperf := hquiet.performed world.log operation h.log hsilent
  have hfailed := hquiet.failed world.log operation h.log hsilent
  refine .perform h.stoppable (h.same rfl h.log) rfl
    ⟨h.same heffect hperf, heffect, hperf, .inl rfl⟩ fun state hstate => ?_
  cases hdamage state hstate
  exact ⟨h.same rfl hfailed, rfl, hfailed, .inr ⟨rfl, operation, mem_cons_self⟩⟩

omit hquiet in
theorem spec_checked {α β : Type} {result : Except Invalid α} {next : α → Io β}
    {post : Except Error β → World Disk Operation → Prop} (h : Holding held property world)
    (hok : ∀ value, result = .ok value →
      Spec environment (next value) world post (Holding held property))
    (herror : ∀ cause, result = .error cause → post (.error (.invalid cause)) world) :
    Spec environment (checked result >>= next) world post (Holding held property) := by
  cases result with
  | ok value => exact hok value rfl
  | error cause => exact .done (h.stoppable world) (herror cause rfl)

def fetch (content : Option Bytes) (limit : Nat) : Except Error Bytes :=
  match content with
  | none => .error .notFound
  | some bytes => (bounded bytes limit).mapError .invalid

omit hquiet in
theorem spec_answers_checked {α β : Type} {program : Io α} {expected : Except Error α}
    {check : α → Except Invalid β} (h : Resting property crash world)
    (hprogram : Spec environment program world (Answers property world expected) crash) :
    Spec environment (program >>= fun value => checked (check value)) world
      (Answers property world (expected >>= fun value => (check value).mapError .invalid))
      crash := by
  refine hprogram.bind ?_ ?_
  · rintro value after ⟨hstate, hlog, rfl | ⟨hres, -⟩⟩
    · have hstop := h.stoppable after (h.same hstate hlog)
      change Spec environment (checked (check value)) after (Answers property world
        ((check value).mapError .invalid)) _
      cases check value <;> exact .done hstop ⟨hstate, hlog, .inl rfl⟩
    · cases hres
  · rintro error after ⟨hstate, hlog, rfl | ⟨hres, hfaulty⟩⟩
    · exact ⟨hstate, hlog, .inl rfl⟩
    · cases hres
      exact ⟨hstate, hlog, .inr ⟨rfl, hfaulty⟩⟩

theorem spec_readBytes (h : Resting property crash world) (file : Name) (limit : Nat) :
    Spec environment (readBytes file limit) world
      (Answers property world (fetch (world.state.get file) limit)) crash := by
  have heffect := Operation.effect_read file world.state
  have hfetch : fetch (world.state.get file) limit =
      ((Operation.read file).effect world.state).1 >>= fun bytes =>
        (bounded bytes limit).mapError .invalid := by
    rw [heffect]
    cases world.state.get file <;> rfl
  rw [hfetch]
  exact spec_answers_checked h (spec_unchanged hquiet h (.read file) ⟨nofun, nofun⟩
    (by rw [heffect]) fun _ h => h)

/-- A missing store file is read as an empty one. -/
theorem spec_readStore (h : Resting property crash world) :
    Spec environment readStore world
      (Answers property world ((bounded world.state.content maxFileBytes).mapError .invalid))
      crash := by
  refine (spec_readBytes hquiet h .store maxFileBytes).attempt ?_
  rintro result after ⟨hstate, hlog, hres⟩
  have hstop := h.stoppable after (h.same hstate hlog)
  rcases hres with hres | ⟨rfl, hfaulty⟩
  · rw [Disk.content]
    rw [Disk.get] at hres
    cases hstore : world.state.store with
    | none =>
      rw [hstore] at hres
      cases hres
      exact .done hstop ⟨hstate, hlog, .inl rfl⟩
    | some bytes =>
      rw [hstore, fetch] at hres
      cases hbdd : bounded bytes maxFileBytes with
      | ok value | error cause =>
        rw [hbdd] at hres
        cases hres
        refine .done hstop ⟨hstate, hlog, .inl ?_⟩
        rw [Option.getD_some, hbdd]
        rfl
  · exact .done hstop ⟨hstate, hlog, .inr ⟨rfl, hfaulty⟩⟩

/-! ## The checkpoint -/

/-- A checkpoint under way: the store file is open, and the records still to be written
lead to the committed image. -/
structure Writing (held : Except Invalid Snapshot) (property : Log → Prop) (bytes : Bytes)
    (wal : Wal) (image : Bytes) (backup : Option Bytes) (records : List (Nat × Bytes))
    (world : World Disk Operation) : Prop where
  replaying : world.state.Replaying bytes wal
  view : world.state.view = held
  log : property world.log
  opened : world.state.store = some world.state.content
  backup : world.state.backup = backup
  remaining : ∀ record ∈ records, record ∈ wal.records
  image : records.foldl overlay (resize wal.size world.state.content) = image

omit hquiet in
theorem Writing.holding {records : List (Nat × Bytes)}
    (h : Writing held property bytes wal image backup records world) :
    Holding held property world :=
  ⟨.inr ⟨bytes, wal, h.replaying⟩, h.view, h.log⟩

/-- What a checkpoint keeps when it fails. -/
structure Broken (held : Except Invalid Snapshot) (property : Log → Prop) (bytes : Bytes)
    (backup : Option Bytes) (world : World Disk Operation) : Prop where
  holding : Holding held property world
  wal : world.state.wal = some bytes
  backup : world.state.backup = backup

theorem Broken.failed (h : Broken held property bytes backup world) (operation : Operation)
    (hsilent : operation.Silent) :
    Broken held property bytes backup ⟨world.state, .failed operation :: world.log⟩ :=
  ⟨⟨h.holding.clean, h.holding.view, hquiet.failed _ _ h.holding.log hsilent⟩, h.wal, h.backup⟩

omit hquiet in
theorem Writing.broken {bytes : Bytes} {wal : Wal} {image : Bytes} {backup : Option Bytes}
    {records : List (Nat × Bytes)} {world : World Disk Operation}
    (h : Writing held property bytes wal image backup records world) :
    Broken held property bytes backup world :=
  ⟨h.holding, h.replaying.log, h.backup⟩

theorem spec_writeRecord (record : Nat × Bytes) (records : List (Nat × Bytes))
    (world : World Disk Operation)
    (h : Writing held property bytes wal image backup (record :: records) world) :
    Spec environment (writeRecord record) world
      (onResult (fun _ => Writing held property bytes wal image backup records)
        fun _ after => Broken held property bytes backup after ∧ Faulty after.log)
      (Holding held property) := by
  have hmem := h.remaining record mem_cons_self
  have hfits := h.replaying.valid.fits record hmem
  have hpage : record.1 ∈ wal.pages := mem_map_of_mem hmem
  refine .step (h.holding.stoppable) ?_ ?_
  · obtain ⟨hreplay, hview⟩ :=
      h.replaying.writePage h.opened hpage hfits.within hfits.data.le
    have hafter : Writing held property bytes wal image backup records
        ⟨world.state.writePage record.1 record.2,
          .performed (.writePage record.1 record.2) :: world.log⟩ := by
      refine ⟨hreplay, hview.trans h.view, hquiet.performed _ _ h.log ⟨nofun, nofun⟩, ?_,
        h.backup, fun other hother => h.remaining other (mem_cons_of_mem _ hother), ?_⟩
      · rw [Disk.writePage, h.opened]
        rfl
      · rw [Disk.content_writePage h.opened, resize_writeAt hfits]
        exact h.image
    exact .done hafter.holding.stoppable hafter
  · rintro state ⟨written, rfl⟩
    have hdata : (record.2.take written).length ≤ pageSize :=
      (length_take_le' _ _).trans hfits.data.le
    obtain ⟨hreplay, hview⟩ := h.replaying.writePage h.opened hpage hfits.within hdata
    have hafter : Holding held property ⟨world.state.writePage record.1 (record.2.take written),
          .failed (.writePage record.1 record.2) :: world.log⟩ :=
      ⟨.inr ⟨bytes, wal, hreplay⟩, hview.trans h.view, hquiet.failed _ _ h.log ⟨nofun, nofun⟩⟩
    exact .done hafter.stoppable ⟨⟨hafter, hreplay.log, h.backup⟩, _, mem_cons_self⟩

/-- What a checkpoint ends with: a settled store file that holds what the log held. -/
structure Checkpointed (held : Except Invalid Snapshot) (property : Log → Prop) (bytes : Bytes)
    (backup : Option Bytes) (world : World Disk Operation) : Prop extends
    Broken held property bytes backup world where
  settled : world.state.Settled
  readable : ∃ image, world.state.store = some image ∧ readable image = held

omit hquiet in
theorem readable_of_check (hvalid : wal.Valid) {base : Bytes} {snapshot : Snapshot}
    (h : wal.check (wal.committed base) = .ok snapshot) :
    readable (wal.committed base) = .ok snapshot := by
  have hlen : (wal.committed base).length ≤ maxFileBytes := by
    rw [Wal.length_committed hvalid]
    exact Disk.size_le_maxFileBytes hvalid
  obtain ⟨_, h⟩ := ensure_bind_ok h
  rw [readable, bounded_ok hlen]
  change decode (wal.committed base) = .ok snapshot
  cases hdec : decode (wal.committed base) with
  | ok decoded => rw [hdec] at h; exact h
  | error error => rw [hdec] at h; cases h

section

variable {bytes : Bytes} {wal : Wal} {image : Bytes} {backup : Option Bytes}
  {world : World Disk Operation}

theorem spec_openStore (h : Holding held property world)
    (hreplay : world.state.Replaying bytes wal) :
    Spec environment (perform .openStore) world
      (onResult
        (fun _ => Writing held property bytes wal (wal.committed world.state.content)
          world.state.backup wal.records)
        fun _ after => Broken held property bytes world.state.backup after ∧ Faulty after.log)
      (Holding held property) := by
  obtain ⟨hopened, hview⟩ := hreplay.open
  have hwriting : Writing held property bytes wal (wal.committed world.state.content)
      world.state.backup wal.records
      ⟨{ world.state with store := some (world.state.store.getD []) },
        .performed .openStore :: world.log⟩ :=
    ⟨hopened, hview.trans h.view, hquiet.performed _ _ h.log ⟨nofun, nofun⟩, rfl, rfl,
      fun _ hrec => hrec, rfl⟩
  refine .perform Holding.stoppable h rfl ⟨hwriting.holding, hwriting⟩ ?_
  rintro state rfl
  have hbroken : Broken held property bytes world.state.backup world :=
    ⟨h, hreplay.log, rfl⟩
  have hfailed := hbroken.failed hquiet .openStore ⟨nofun, nofun⟩
  exact ⟨hfailed.holding, hfailed, _, mem_cons_self⟩

theorem spec_setLength (h : Writing held property bytes wal image backup [] world) :
    Spec environment (perform (.setLength wal.size)) world
      (onResult
        (fun _ after => Writing held property bytes wal image backup [] after ∧
          after.state.store = some image)
        fun _ after => Broken held property bytes backup after ∧ Faulty after.log)
      (Holding held property) := by
  obtain ⟨hreplay, hview⟩ := h.replaying.setLength h.opened
  have hstore : world.state.store.map (resize wal.size) = some image := by
    rw [h.opened]
    exact congrArg some h.image
  have hafter : Writing held property bytes wal image backup []
      ⟨{ world.state with store := world.state.store.map (resize wal.size) },
        .performed (.setLength wal.size) :: world.log⟩ := by
    refine ⟨hreplay, hview.trans h.view, hquiet.performed _ _ h.log ⟨nofun, nofun⟩, ?_,
      h.backup, fun _ hrec => (not_mem_nil hrec).elim, ?_⟩
    · rw [hstore]
      rfl
    · have hlen : image.length = wal.size := h.image ▸ length_resize _ _
      rw [hstore]
      exact hlen ▸ resize_self image
  refine .perform Holding.stoppable h.holding rfl ⟨hafter.holding, hafter, hstore⟩ ?_
  rintro state rfl
  have hfailed := h.broken.failed hquiet (.setLength wal.size) ⟨nofun, nofun⟩
  exact ⟨hfailed.holding, hfailed, _, mem_cons_self⟩

theorem spec_syncStore (h : Writing held property bytes wal image backup [] world)
    (hstore : world.state.store = some image) (hreadable : readable image = held) :
    Spec environment (perform .syncStore) world
      (onResult (fun _ => Checkpointed held property bytes backup)
        fun _ after => Broken held property bytes backup after ∧ Faulty after.log)
      (Holding held property) := by
  obtain ⟨hset, hview⟩ := Disk.sync_settled world.state
  have hafter : Checkpointed held property bytes backup
      ⟨{ world.state with durable := world.state.store, dirty := [] },
        .performed .syncStore :: world.log⟩ :=
    ⟨⟨⟨.inl hset, hview.trans h.view, hquiet.performed _ _ h.log ⟨nofun, nofun⟩⟩,
      h.replaying.log, h.backup⟩, hset, image, hstore, hreadable⟩
  refine .perform Holding.stoppable h.holding rfl ⟨hafter.holding, hafter⟩ ?_
  rintro state rfl
  have hfailed := h.broken.failed hquiet .syncStore ⟨nofun, nofun⟩
  exact ⟨hfailed.holding, hfailed, _, mem_cons_self⟩

theorem spec_checkpoint {snapshot : Snapshot} (h : Holding (.ok snapshot) property world)
    (hreplay : world.state.Replaying bytes wal)
    (hcheck : wal.check (wal.committed world.state.content) = .ok snapshot) :
    Spec environment (checkpoint wal) world
      (onResult (fun _ => Checkpointed (.ok snapshot) property bytes world.state.backup)
        fun _ after => Broken (.ok snapshot) property bytes world.state.backup after ∧
          Faulty after.log) (Holding (.ok snapshot) property) := by
  refine (spec_openStore hquiet h hreplay).bind (fun _ opened hopened => ?_) fun _ _ h => h
  have hrecs := Spec.each (fun _ hinv => hinv.holding.stoppable) (spec_writeRecord hquiet) hopened
  refine hrecs.bind (fun _ written hwritten => ?_) fun _ _ h => h
  refine (spec_setLength hquiet hwritten).bind (fun _ cut hcut => ?_) fun _ _ h => h
  have hreadable := readable_of_check hreplay.valid hcheck
  refine (spec_syncStore hquiet hcut.1 hcut.2 hreadable).bind (fun _ synced hsynced => ?_)
    fun _ _ h => h
  exact .done hsynced.holding.stoppable hsynced

end

def reported (held : Except Invalid Snapshot) : Except Error Snapshot :=
  held.mapError .invalid

theorem spec_applyWal (h : Holding held property world) (hwal : world.state.wal = some bytes)
    (hlen : bytes.length ≤ maxWalBytes) :
    Spec environment (applyWal bytes) world
      (onResult (fun _ => Checkpointed held property bytes world.state.backup)
        fun error after => Broken held property bytes world.state.backup after ∧
            (Faulty after.log ∨ reported held = .error error)) (Holding held property) := by
  have hheld : held = readWal bytes >>= fun wal =>
      bounded world.state.content maxFileBytes >>= fun current =>
        wal.check (wal.committed current) := by
    rw [← h.view, Disk.view, hwal]
    change world.state.viewWal bytes = _
    rw [Disk.viewWal, bounded_ok hlen]
    rfl
  refine spec_checked h ?_ ?_
  · intro wal hread
    rw [hread] at hheld
    refine (spec_readStore hquiet h.resting).bind ?_ ?_
    · rintro current after ⟨hstate, hlog, hres | ⟨hres, -⟩⟩
      · have hafter := h.of_state hstate hlog
        cases hbdd : bounded world.state.content maxFileBytes with
        | error cause => rw [hbdd] at hres; cases hres
        | ok value =>
          rw [hbdd] at hres hheld
          cases hres
          obtain ⟨rfl, hle⟩ := bounded_eq_ok hbdd
          change held = wal.check (wal.committed world.state.content) at hheld
          refine spec_checked hafter ?_ ?_
          · intro snapshot hcheck
            cases hheld.trans hcheck
            have hreplay := hafter.clean.replaying (hstate ▸ hwal) hread (hstate ▸ hle)
            have hckpt := spec_checkpoint hquiet hafter hreplay (hstate ▸ hcheck)
            rw [hstate] at hckpt
            exact hckpt.weaken (fun result _ hpost => by
              cases result with
              | ok _ => exact hpost
              | error _ => exact ⟨hpost.1, .inl hpost.2⟩) fun _ h => h
          · intro cause hcause
            refine ⟨⟨hafter, hstate ▸ hwal, by rw [hstate]⟩, .inr ?_⟩
            rw [hheld, hcause]
            rfl
      · cases hres
    · rintro error after ⟨hstate, hlog, hres⟩
      refine ⟨⟨h.of_state hstate hlog, hstate ▸ hwal, by rw [hstate]⟩, ?_⟩
      rcases hres with hres | ⟨-, hfaulty⟩
      · cases hbdd : bounded world.state.content maxFileBytes with
        | ok value => rw [hbdd] at hres; cases hres
        | error cause =>
          rw [hbdd] at hres hheld
          cases hres
          rw [hheld]
          exact .inr rfl
      · exact .inl hfaulty
  · intro cause hcause
    refine ⟨⟨h, hwal, rfl⟩, .inr ?_⟩
    rw [hheld, hcause]
    rfl

end

end Disp.Store

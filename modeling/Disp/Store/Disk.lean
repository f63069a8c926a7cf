import Disp.Library.Interaction
import Disp.Store.Wal

/-!
# The store on disk

The files next to a store, the operations of the store on them, and the programs that
load and commit a snapshot.  An operation may fail; a write that fails may have been made
in part.  A crash loses the temporary file and may tear every page of the store that was
written since its last synchronisation.
-/

namespace Disp.Store

open Library.Codec Library.Interaction

/-! ## Files -/

/-- The errors that the store tells apart. -/
inductive Error where
  | notFound
  | invalid (cause : Invalid)
  | failed
deriving DecidableEq, Repr

def Error.message : Error → String
  | .notFound => "entity not found"
  | .invalid cause => cause.message
  | .failed => "other error"

inductive Name where
  | store
  | wal
  | backup
  | temporary
deriving DecidableEq, Repr

structure Disk where
  store : Option Bytes
  /-- The store file at its last synchronisation. -/
  durable : Option Bytes
  /-- The pages of the store file written since. -/
  dirty : List Nat
  wal : Option Bytes
  backup : Option Bytes
  temporary : Option Bytes
deriving DecidableEq, Repr

namespace Disk

def get (disk : Disk) : Name → Option Bytes
  | .store => disk.store
  | .wal => disk.wal
  | .backup => disk.backup
  | .temporary => disk.temporary

def set (disk : Disk) (name : Name) (content : Option Bytes) : Disk :=
  match name with
  | .store => { disk with store := content, durable := content, dirty := [] }
  | .wal => { disk with wal := content }
  | .backup => { disk with backup := content }
  | .temporary => { disk with temporary := content }

def writeAt (bytes : Bytes) (start : Nat) (data : Bytes) : Bytes :=
  if data.isEmpty then bytes
  else resize start bytes ++ (data ++ bytes.drop (start + data.length))

def writePage (disk : Disk) (page : Nat) (data : Bytes) : Disk :=
  { disk with
    store := disk.store.map fun bytes => writeAt bytes (page * pageSize) data
    dirty := page :: disk.dirty }

/-- A content that the store file may have after a crash. -/
def Image (disk : Disk) : Option Bytes → Prop
  | none => disk.durable = none
  | some image =>
    (disk.durable.isSome ∨ disk.store.isSome) ∧
    min (disk.durable.getD []).length (disk.store.getD []).length ≤ image.length ∧
    image.length ≤ max (disk.durable.getD []).length (disk.store.getD []).length ∧
    ∀ index < image.length, index / pageSize ∉ disk.dirty →
      image[index]? = some ((disk.durable.getD []).getD index 0)

/-- What a crash leaves. -/
structure Left (disk after : Disk) : Prop where
  image : disk.Image after.store
  durable : after.durable = after.store
  dirty : after.dirty = []
  wal : after.wal = disk.wal
  backup : after.backup = disk.backup

end Disk

/-! ## Operations -/

inductive Operation where
  /-- The size, the opening and the reading of a file. -/
  | read (file : Name)
  | isFile (file : Name)
  | createDirectory
  /-- A new file under a name that no other commit uses. -/
  | createTemporary
  | writeTemporary (bytes : Bytes)
  | syncTemporary
  | rename (source target : Name)
  | syncDirectory
  | openStore
  | writePage (page : Nat) (data : Bytes)
  | setLength (length : Nat)
  | syncStore
  | remove (file : Name)
deriving DecidableEq, Repr

def Operation.effect (operation : Operation) (disk : Disk) : Except Error Bytes × Disk :=
  match operation with
  | .read file =>
    match disk.get file with
    | some bytes => (.ok bytes, disk)
    | none => (.error .notFound, disk)
  | .isFile file => (.ok (if (disk.get file).isSome then [1] else [0]), disk)
  | .createDirectory => (.ok [], disk)
  | .createTemporary => (.ok [], disk.set .temporary (some []))
  | .writeTemporary bytes => (.ok [], disk.set .temporary (disk.temporary.map (· ++ bytes)))
  | .syncTemporary => (.ok [], disk)
  | .rename source target =>
    match disk.get source with
    | some bytes => (.ok [], (disk.set source none).set target (some bytes))
    | none => (.error .notFound, disk)
  | .syncDirectory => (.ok [], disk)
  | .openStore => (.ok [], { disk with store := some (disk.store.getD []) })
  | .writePage page data => (.ok [], disk.writePage page data)
  | .setLength length => (.ok [], { disk with store := disk.store.map (resize length) })
  | .syncStore => (.ok [], { disk with durable := disk.store, dirty := [] })
  | .remove file =>
    match disk.get file with
    | some _ => (.ok [], disk.set file none)
    | none => (.error .notFound, disk)

theorem Operation.effect_read (file : Name) (disk : Disk) :
    (Operation.read file).effect disk = ((disk.get file).elim (.error .notFound) .ok, disk) := by
  simp only [effect]
  cases disk.get file <;> rfl

theorem Operation.effect_remove (file : Name) (disk : Disk) :
    (Operation.remove file).effect disk =
      if (disk.get file).isSome then (.ok [], disk.set file none)
      else (.error .notFound, disk) := by
  simp only [effect]
  cases disk.get file <;> rfl

/-- What a failing operation may have done. -/
def Operation.damage (operation : Operation) (disk after : Disk) : Prop :=
  match operation with
  | .writeTemporary bytes =>
    ∃ written, after = disk.set .temporary (disk.temporary.map (· ++ bytes.take written))
  | .writePage page data => ∃ written, after = disk.writePage page (data.take written)
  | _ => after = disk

def environment : Environment Disk Operation Bytes Error where
  effect := Operation.effect
  damage := Operation.damage
  failure := .failed
  left := Disk.Left

/-! ## Programs -/

abbrev Io := Program Operation Bytes Error

open Program (perform lift attempt)

def checked {α : Type} (result : Except Invalid α) : Io α := lift (result.mapError .invalid)

def bounded (bytes : Bytes) (limit : Nat) : Except Invalid Bytes := do
  ensure (decide (bytes.length ≤ limit)) "DISP Data file exceeds its storage limit"
  return bytes

def readBytes (file : Name) (limit : Nat) : Io Bytes := do
  let bytes ← perform (.read file)
  checked (bounded bytes limit)

def readSnapshot (file : Name) : Io Snapshot := do
  let bytes ← readBytes file maxFileBytes
  checked (decode bytes)

/-- The content of the store file, empty when there is none. -/
def readStore : Io Bytes := do
  match ← attempt (readBytes .store maxFileBytes) with
  | .ok bytes => return bytes
  | .error .notFound => return []
  | .error error => lift (.error error)

def writeRecord (record : Nat × Bytes) : Io Unit := do
  let _ ← perform (.writePage record.1 record.2)

/-- The logged pages are written in place. -/
def checkpoint (wal : Wal) : Io Unit := do
  let _ ← perform .openStore
  Program.each writeRecord wal.records
  let _ ← perform (.setLength wal.size)
  let _ ← perform .syncStore

def applyWal (bytes : Bytes) : Io Unit := do
  let wal ← checked (readWal bytes)
  let current ← readStore
  let _ ← checked (wal.check (wal.committed current))
  checkpoint wal

def recoverWal : Io Unit := do
  match ← attempt (readBytes .wal maxWalBytes) with
  | .ok bytes =>
    applyWal bytes
    let _ ← perform (.remove .wal)
  | .error .notFound => return ()
  | .error error => lift (.error error)

def checkLock (protects : Except Invalid Bool) : Except Invalid Unit := do
  let locked ← protects
  ensure locked "DISP Data lock does not protect this store"

def unavailable (error backupError : Error) : Invalid :=
  ⟨s!"DISP Data snapshot and recovery backup are unavailable: {error.message}; " ++
    backupError.message⟩

/-- The snapshot of the backup file, which then becomes the store file. -/
def loadBackup (error : Error) : Io Snapshot := do
  match ← attempt (readSnapshot .backup) with
  | .ok snapshot =>
    let _ ← perform (.rename .backup .store)
    return snapshot
  | .error backupError => checked (.error (unavailable error backupError))

def load (protects : Except Invalid Bool) : Io Snapshot := do
  checked (checkLock protects)
  recoverWal
  match ← attempt (readSnapshot .store) with
  | .ok snapshot => return snapshot
  | .error .notFound =>
    let present ← attempt (perform (.isFile .backup))
    if present = .ok [1] then loadBackup .notFound else return Snapshot.empty
  | .error error => lift (.error error)

/-- The checkpoint of a commit; when it fails, the log is left for recovery. -/
def finish (wal : Bytes) : Io Unit := do
  match ← attempt (applyWal wal) with
  | .ok _ =>
    let _ ← perform (.remove .wal)
    let _ ← attempt (perform (.remove .backup))
    return ()
  | .error _ => return ()

/-- The part of a commit that writes: the log, its renaming, which is the commit point,
and the checkpoint. -/
def publish (wal : Bytes) : Io Unit := do
  let _ ← perform .createTemporary
  let _ ← perform (.writeTemporary wal)
  let _ ← perform .syncTemporary
  let _ ← perform (.rename .temporary .wal)
  let _ ← attempt (perform .syncDirectory)
  finish wal

/-- The log of a commit over the file it replaces. -/
def commitLog (old : Bytes) (snapshot : Snapshot) : Except Invalid Bytes := do
  let generation := currentGeneration old + 1
  ensure (decide (generation < 2 ^ 64)) "DISP Data generation counter is exhausted"
  let new ← encodePages snapshot (UInt64.ofNat generation)
  encodeWal old new (UInt64.ofNat generation)

def commit (protects : Except Invalid Bool) (snapshot : Snapshot) : Io Unit := do
  checked (checkLock protects)
  recoverWal
  let _ ← perform .createDirectory
  let old ← readStore
  let wal ← checked (commitLog old snapshot)
  match ← attempt (publish wal) with
  | .ok _ => return ()
  | .error error =>
    let _ ← attempt (perform (.remove .temporary))
    lift (.error error)

end Disp.Store

import Benji.Storage
import Benji.UpdateVersion

/-! `Benji.restore` to a file: sparse blocks are written first, then the blocks that have
objects, each write done by some thread at some time. -/
namespace Benji
open Lib

variable {κ : Type}

structure Restore (κ : Type) where
  world : World κ
  /-- The target file; `none` while it does not exist. -/
  target : Option Bytes
  /-- The blocks the first loop has not come to. -/
  blocks : List (Block κ) := []
  /-- The variable `block`, which outlives the loops. -/
  current : Option (Block κ) := none
  reads : List (Block κ) := []
  queued : List (Block κ × Bytes) := []
  written : List (Block κ) := []
  readJobs : ℕ := 0
  doneReadJobs : ℕ := 0
  writeJobs : ℕ := 0
  doneWriteJobs : ℕ := 0
  /-- The uids `set_block_valid` was called with, in this order. -/
  marked : List (Option BlockUid) := []

abbrev RestoreAction (κ α : Type) := Proc Error (Restore κ) α

namespace Restore

def onWorld {α : Type} (p : Action κ α) : RestoreAction κ α :=
  Proc.onPart Restore.world (fun R w => { R with world := w }) p

/-- `IO.open_w`. -/
def openW (url : String) (size : ℕ) (force : Bool) : RestoreAction κ Unit := fun R =>
  match R.target with
  | some file =>
    if force = false then some (.error (.fileExistsError
      s!"{url} already exists. Force the restore if you want to overwrite it."), R)
    else if size > file.length then some (.error (.osError
      (s!"{url} is too small. Its size is {file.length} bytes, but we need {size} bytes " ++
        "for the restore.")), R)
    else some (.ok (), R)
  | none =>
    -- The file is there before the seek to a negative offset fails.
    if size = 0 then some (.error (.osError "Invalid argument"), { R with target := some [] })
    else some (.ok (), { R with target := some (overwrite [] (size - 1) [0]) })

inductive Event where
  | next
  | read (idx : ℕ)
  | write (idx : ℕ)
  | collect (idx : ℕ)
  | raise (e : Error)

/-- `IO._write` in a thread, and the completion of writes in the main loop. -/
def ioStep (version : Version) : Event → RestoreAction κ Unit
  | .write idx => fun R =>
    match R.queued.find? fun q => q.1.idx = idx with
    | none => none
    | some (block, data) => match R.target with
      | none => some (.error .fileNotFoundError, R)
      | some file => some (.ok (), { R with
          queued := R.queued.filter fun q => q.1.idx ≠ idx
          written := R.written ++ [block]
          target := some (overwrite file (block.idx * version.blockSize) data) })
  | .collect idx => fun R =>
    match R.written.find? fun b => b.idx = idx with
    | none => none
    | some _ => some (.ok (), { R with
        written := R.written.filter fun b => b.idx ≠ idx
        doneWriteJobs := R.doneWriteJobs + 1 })
  | .raise e => Proc.raise e
  | .next => fun _ => none
  | .read _ => fun _ => none

/-- The loop over `version.blocks`. -/
def sparseStep (version : Version) (sparse : Bool) : Event → RestoreAction κ Unit
  | .next => fun R =>
    match R.blocks with
    | [] => none
    | block :: rest =>
      if block.uid.isSome then some (.ok (), { R with
        blocks := rest, current := some block,
        reads := R.reads ++ [block], readJobs := R.readJobs + 1 })
      else if sparse = false then some (.ok (), { R with
        blocks := rest, current := some block,
        queued := R.queued ++ [(block, zeros version.blockSize)], writeJobs := R.writeJobs + 1 })
      else some (.ok (), { R with blocks := rest, current := some block })
  | .read idx => ioStep version (.read idx)
  | .write idx => ioStep version (.write idx)
  | .collect idx => ioStep version (.collect idx)
  | .raise e => ioStep version (.raise e)

def setBlockValid (blockUid : Option BlockUid) (valid : Bool) (R : Restore κ) : Restore κ :=
  { R with
    world := (R.world.mapDb fun db => db.setBlockValid blockUid valid).commit
    marked := R.marked ++ [blockUid] }

/-- An entry that is an exception. The uid marked is that of whatever `block` is just then. -/
def handleReadError (e : Error) : RestoreAction κ Unit := fun R =>
  match e with
  | .keyError _ | .valueError _ =>
    some (.ok (), R.setBlockValid (R.current.bind Block.uid) false)
  | e => some (.error e, R)

/-- The checks on data that has already been handed to the target. -/
def checkData [DecidableEq κ] (S : Settings κ) (block : Block κ) (data : Bytes)
    (m : Metadata κ) : RestoreAction κ Unit := fun R =>
  match checkBlockMetadata block (some data.length) m with
  | some (.valueError _) => some (.ok (), R.setBlockValid block.uid false)
  | some e => some (.error e, R)
  | none =>
    if some (S.dataHexdigest data) = block.checksum then some (.ok (), R)
    else some (.ok (), R.setBlockValid block.uid false)

/-- The loop over the completed reads. -/
def dataStep [DecidableEq κ] (S : Settings κ) (version : Version) : Event → RestoreAction κ Unit
  | .read idx => fun R =>
    match R.reads.find? fun b => b.idx = idx with
    | none => none
    | some block =>
      let R := { R with
        reads := R.reads.filter fun b => b.idx ≠ idx
        doneReadJobs := R.doneReadJobs + 1 }
      match readObject R.world.objects version.storage.id block with
      | .error e => handleReadError e R
      | .ok (data, m) => checkData S block data m { R with
          current := some block
          queued := R.queued ++ [(block, data)]
          writeJobs := R.writeJobs + 1 }
  | .next => ioStep version .next
  | .write idx => ioStep version (.write idx)
  | .collect idx => ioStep version (.collect idx)
  | .raise e => ioStep version (.raise e)

/-- The last `handle_write_completed` of a loop waits for everything the loop submitted. -/
def waitForAll (reads : Bool) : RestoreAction κ Unit := fun R =>
  if R.blocks = [] ∧ R.queued = [] ∧ R.written = [] ∧ (reads = true → R.reads = []) then
    some (.ok (), R)
  else none

structure Schedule where
  sparseEvents : List Event
  dataEvents : List Event

def restoreBlocks [DecidableEq κ] (S : Settings κ) (version : Version) (sparse : Bool)
    (sched : Schedule) : RestoreAction κ Unit := do
  Proc.modify fun R => { R with blocks := R.world.db.blocks.blocks S.blocksPerCall version }
  Proc.forEach (sparseStep version sparse) sched.sparseEvents
  waitForAll false
  let R ← Proc.get
  Proc.raiseIf (R.writeJobs ≠ R.doneWriteJobs) (jobsMessage "write" R.writeJobs R.doneWriteJobs)
  Proc.modify fun R => { R with doneReadJobs := 0, writeJobs := 0, doneWriteJobs := 0 }
  Proc.forEach (dataStep S version) sched.dataEvents
  waitForAll true

/-- The version to restore, with the target opened for it. -/
def prepare (versionUid url : String) (force : Bool) : RestoreAction κ Version := do
  let R ← Proc.get
  let version ← Proc.ofOption (R.world.db.getByUid versionUid)
    (.keyError s!"Version {versionUid} not found.")
  openW url version.size force
  pure version

end Restore

def restore [DecidableEq κ] (S : Settings κ) (versionUid url : String) (sparse force : Bool)
    (sched : Restore.Schedule) : RestoreAction κ Unit := do
  Restore.onWorld (Locking.lockVersion S.me versionUid "Restoring version")
  let version ← Proc.tryExcept (Restore.prepare versionUid url force) fun e => do
    Restore.onWorld (Locking.unlockVersion S.me versionUid)
    Proc.raise e
  Proc.tryFinally (Restore.restoreBlocks S version sparse sched)
    (Restore.onWorld (Locking.unlockVersion S.me versionUid))
  let R ← Proc.get
  Proc.raiseIf (R.readJobs ≠ R.doneReadJobs)
    (jobsMessage "read" R.readJobs R.doneReadJobs)
  Proc.raiseIf (R.writeJobs ≠ R.doneWriteJobs)
    (jobsMessage "write" R.writeJobs R.doneWriteJobs)

end Benji

import Benji.Backup.Run
import Benji.Nbd.Flat

/-! `BenjiStore.fixate`: the written blocks become objects and rows of their version. An
exception of `set_block` has rolled the session back when it is caught. -/
namespace Benji.Nbd
open Lib

variable {κ : Type}

/-- What fails, by block index, and when the commit interval has run out. -/
structure FixateSchedule where
  writeError : ℕ → Option Error
  setBlockError : ℕ → Option Error
  removeError : ℕ → Option Error
  due : ℕ → Bool
  metadataError : Option Error

namespace Store

def onWorld {α : Type} (p : Benji.Action κ α) : Action κ α :=
  Proc.onPart Store.world (fun s w => { s with world := w }) p

def raiseAny (e : Option Error) : Action κ Unit :=
  match e with
  | some e => Proc.raise e
  | none => Proc.modify id

/-- `self._cow_store.rm(block.uid)`. -/
def removeFile (blockUid : Option BlockUid) : Action κ Unit := do
  let s ← Proc.get
  let cowStore ← ofExcept (s.cowStore.rm blockUid)
  Proc.modify fun s => { s with cowStore := cowStore }

/-- `storage.write_block(block, data)`. -/
def writeBlock (sched : FixateSchedule) (c : Version) (block : Block κ) (data : Bytes) :
    Action κ Unit := do
  raiseAny (sched.writeError block.idx)
  onWorld (Proc.modify fun w => { w with
    objects := writeObject w.objects c.storage.id block data })

def setBlock (sched : FixateSchedule) (c : Version) (idx : ℕ) (blockUid : Option BlockUid)
    (checksum : Option κ) (size : ℕ) : Benji.Action κ Unit :=
  match sched.setBlockError idx with
  | some e => Locking.rollbackAndRaise e
  | none => Proc.modify fun w =>
    (w.setBlocks (w.db.blocks.setBlock c idx blockUid checksum size true)).timedCommit
      (sched.due idx)

/-- Prevents orphaned blocks. -/
def removeBlock (sched : FixateSchedule) (c : Version) (idx : ℕ) (blockUid : Option BlockUid) :
    Action κ Unit :=
  match blockUid with
  | none => Proc.modify id
  | some uid => do
    raiseAny (sched.removeError idx)
    onWorld (Proc.modify fun w => { w with objects := w.objects.put c.storage.id uid none })

def recordBlock (sched : FixateSchedule) (c : Version) (idx : ℕ) (blockUid : Option BlockUid)
    (checksum : Option κ) (size : ℕ) : Action κ Unit :=
  Proc.tryExcept (onWorld (setBlock sched c idx blockUid checksum size))
    fun _ => removeBlock sched c idx blockUid

def fixateBlock [DecidableEq κ] (S : Settings κ) (sched : FixateSchedule) (c : Version)
    (entry : ℕ × Block κ) : Action κ Unit := do
  let block := entry.2
  let s ← Proc.get
  let data ← ofExcept (s.cowStore.read block.uid 0 none)
  let checksum := S.dataHexdigest data
  if checksum = S.dataHexdigest (zeros c.blockSize) then do
    removeFile block.uid
    recordBlock sched c block.idx none none data.length
  else do
    writeBlock sched c { block with checksum := some checksum } data
    removeFile block.uid
    recordBlock sched c block.idx block.uid (some checksum) data.length

/-- What is done when all blocks are through. -/
def finishFixate (S : Settings κ) (sched : FixateSchedule) (c : Version) : Benji.Action κ Unit := do
  Proc.modify World.commit
  Proc.modify (setStatus c.id .valid)
  metadataBackup c.uid sched.metadataError
  Locking.unlockVersion S.me c.uid

def fixate [DecidableEq κ] (S : Settings κ) (sched : FixateSchedule) (c : Version) :
    Action κ Unit := do
  let cow ← cowOf c
  Proc.forEach (fixateBlock S sched c) cow
  onWorld (finishFixate S sched c)
  Proc.modify fun s => { s with cow := fun uid => if uid = c.uid then none else s.cow uid }

end Store
end Benji.Nbd

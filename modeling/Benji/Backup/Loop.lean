import Benji.Storage
import Benji.UpdateVersion
import Benji.Hints

/-! The block loop of `Benji.backup`: which blocks are queued for reading, what becomes of the
data of a block that was read, and the completion of reads and writes in any order. -/
namespace Benji
open Lib

variable {κ : Type}

/-- The file a backup reads. -/
structure Source where
  url : String
  data : Bytes

/-- `IO._read`. -/
def Source.read (io : Source) (blockSize : ℕ) (b : Block κ) : Except Error Bytes :=
  if slice io.data (b.idx * blockSize) b.size = [] then
    .error (.eofError s!"End of file reached on {io.url} when there should be data.")
  else .ok (slice io.data (b.idx * blockSize) b.size)

/-- What the data of a block turns out to be. -/
inductive Found (κ : Type) where
  | sparse
  | existing (b : Block κ)
  | new (b : Block κ)

/-- `pick` is the database's choice among the rows that have the checksum. -/
def classify [DecidableEq κ] (S : Settings κ) (db : Database κ) (version : Version)
    (block : Block κ) (data : Bytes) (pick : ℕ) : Found κ :=
  if S.dataHexdigest data = S.dataHexdigest (zeros version.blockSize) ∧
      block.size = version.blockSize then .sparse
  else match db.getBlockByChecksum version (S.dataHexdigest data) pick with
    | some existingBlock =>
      if existingBlock.size = block.size then .existing existingBlock
      else .new { block with
        uid := some ⟨version.id, block.idx + 1⟩, checksum := some (S.dataHexdigest data) }
    | none => .new { block with
        uid := some ⟨version.id, block.idx + 1⟩, checksum := some (S.dataHexdigest data) }

structure Loop (κ : Type) where
  world : World κ
  /-- Submitted reads whose results have not been taken. -/
  reads : List (Block κ) := []
  /-- Submitted writes that no thread of the storage has done yet. -/
  queued : List (Block κ × Bytes) := []
  /-- Writes that are done and whose results have not been taken. -/
  written : List (Block κ) := []
  readJobs : ℕ := 0
  doneReadJobs : ℕ := 0
  writeJobs : ℕ := 0
  doneWriteJobs : ℕ := 0
  stats : Stats := {}

namespace Loop

def setBlock (L : Loop κ) (version : Version) (idx : ℕ) (blockUid : Option BlockUid)
    (checksum : Option κ) (size : ℕ) (due : Bool) : Loop κ :=
  { L with world := (L.world.setBlocks
      (L.world.db.blocks.setBlock version idx blockUid checksum size true)).timedCommit due }

/-- One round of the loop over `version.blocks`. -/
def queueBlock (version : Version) (sparseBlocks readBlocks : List ℕ) (due : ℕ → Bool)
    (block : Block κ) : Proc Error (Loop κ) Unit := fun L =>
  if block.idx ∈ readBlocks ∨ block.valid = false then
    some (.ok (), { L with reads := L.reads ++ [block], readJobs := L.readJobs + 1 })
  else if block.idx ∈ sparseBlocks then
    -- A block in both sets must be read, so this case comes second.
    match block.uid, block.checksum with
    | some _, _ => some (.ok (),
      { L.setBlock version block.idx none none block.size (due block.idx) with
        stats := { L.stats with bytesSparse := L.stats.bytesSparse + block.size } })
    | none, none => some (.ok (),
      { L with stats := { L.stats with bytesSparse := L.stats.bytesSparse + block.size } })
    | none, some _ => some (.error .assertionError, L)
  else some (.ok (), L)

def takeRead (block : Block κ) (data : Bytes) (L : Loop κ) : Loop κ :=
  { L with
    reads := L.reads.filter fun b => b.idx ≠ block.idx
    doneReadJobs := L.doneReadJobs + 1
    stats := { L.stats with bytesRead := L.stats.bytesRead + data.length } }

def handleFound (version : Version) (block : Block κ) (data : Bytes) (due : Bool) (L : Loop κ) :
    Found κ → Loop κ
  | .sparse =>
    { L.setBlock version block.idx none none block.size due with
      stats := { L.stats with bytesSparse := L.stats.bytesSparse + block.size } }
  | .existing b =>
    { L.setBlock version block.idx b.uid b.checksum b.size due with
      stats := { L.stats with bytesDeduplicated := L.stats.bytesDeduplicated + data.length } }
  | .new b => { L with queued := L.queued ++ [(b, data)], writeJobs := L.writeJobs + 1 }

/-- The body of the loop over the completed reads. -/
def handleRead [DecidableEq κ] (S : Settings κ) (version : Version) (block : Block κ)
    (data : Bytes) (pick : ℕ) (due : Bool) (L : Loop κ) : Loop κ :=
  (L.takeRead block data).handleFound version block data due
    (classify S L.world.db version block data pick)

/-- One entry of `write_get_completed`. -/
def handleWritten (version : Version) (block : Block κ) (due : Bool) (L : Loop κ) : Loop κ :=
  { L.setBlock version block.idx block.uid block.checksum block.size due with
    written := L.written.filter fun b => b.idx ≠ block.idx
    doneWriteJobs := L.doneWriteJobs + 1
    stats := { L.stats with bytesWritten := L.stats.bytesWritten + block.size } }

/-- What happens next while the loop runs: the result of a read is taken, a thread of the
storage writes an object, the result of a write is taken, or something raises. -/
inductive Event where
  | read (idx pick : ℕ) (due : Bool)
  | write (idx : ℕ)
  | collect (idx : ℕ) (due : Bool)
  | raise (e : Error)

def step [DecidableEq κ] (S : Settings κ) (version : Version) (io : Source) :
    Event → Proc Error (Loop κ) Unit
  | .read idx pick due => fun L =>
    match L.reads.find? fun b => b.idx = idx with
    | none => none
    | some block =>
      match io.read version.blockSize block with
      | .error e => some (.error e, L)
      | .ok data => some (.ok (), L.handleRead S version block data pick due)
  | .write idx => fun L =>
    match L.queued.find? fun q => q.1.idx = idx with
    | none => none
    | some (block, data) => some (.ok (), { L with
        queued := L.queued.filter fun q => q.1.idx ≠ idx
        written := L.written ++ [block]
        world := { L.world with
          objects := writeObject L.world.objects version.storage.id block data } })
  | .collect idx due => fun L =>
    match L.written.find? fun b => b.idx = idx with
    | none => none
    | some block =>
      if block.versionId = version.id then some (.ok (), L.handleWritten version block due)
      else some (.error .assertionError, L)
  | .raise e => Proc.raise e

/-- The final `handle_write_completed` waits for every write. -/
def waitForAll : Proc Error (Loop κ) Unit := fun L =>
  if L.reads = [] ∧ L.queued = [] ∧ L.written = [] then some (.ok (), L) else none

end Loop
end Benji

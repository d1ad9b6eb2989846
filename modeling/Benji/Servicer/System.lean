import Benji.UpdateVersion
import Benji.Lib.Steps

/-! Requests to back up versions, NBD exports, deep-scrubs, markings of blocks, removals and
cleanups that share a database and its storages, one statement or object access at a time. -/
namespace Benji.Servicer
open Lib

variable {κ : Type}

/-- A block handed to `write_block_async`. -/
structure Job (κ : Type) where
  ticket : ℕ
  storageId : ℕ
  idx : ℕ
  uid : BlockUid
  checksum : κ
  size : ℕ

/-- `clone` is `update_version` or `create_version`, `queue` and `loop` are the two loops of
`backup`, `cow` is an open export and `fixate` its end. -/
inductive Stage where
  | clone
  | queue
  | loop
  | cow
  | fixate
  deriving DecidableEq

/-- A running backup, or an NBD export, with its database session. It holds the lock of its
version. -/
structure Session (κ : Type) where
  version : Version
  base : Option Version
  nbd : Bool
  readBlocks : List ℕ
  sparseBlocks : List ℕ
  stage : Stage := .clone
  /-- The next block of the base version, or of the version itself, to be loaded. -/
  next : ℕ := 0
  /-- Rows that are not yet handed to `create_blocks`. -/
  package : List (Block κ) := []
  /-- Blocks that `version.blocks` has loaded and not yet yielded. -/
  loaded : List (Block κ) := []
  /-- The rows written and not committed. -/
  ops : List (Block κ) := []
  /-- The reads and the writes submitted whose results have not been taken. -/
  reads : List (Block κ) := []
  writes : List (Job κ) := []
  readJobs : ℕ := 0
  doneReadJobs : ℕ := 0
  writeJobs : ℕ := 0
  doneWriteJobs : ℕ := 0
  /-- The blocks of the export that are copied and not fixated. -/
  cow : List ℕ := []

def Session.id (x : Session κ) : ℕ := x.version.id

structure State (κ : Type) where
  nextId : ℕ
  nextTicket : ℕ
  db : Database κ
  /-- The checksum of what is stored under a uid. -/
  objects : ℕ → BlockUid → Option κ
  sessions : Table (Session.id (κ := κ))
  /-- Submitted writes; they outlive the backup that submitted them. -/
  jobs : Table (Job.ticket (κ := κ))
  written : List ℕ
  /-- The versions whose backup has failed, until the servicer sets their status. -/
  failed : List ℕ
  /-- The versions of which a backup or a fixate has completed. -/
  completed : List ℕ

def applyOps (t : BlockTable κ) (v : Version) (ops : List (Block κ)) : BlockTable κ :=
  ops.foldl (fun t b => t.setBlock v b.idx b.uid b.checksum b.size b.valid) t

namespace Session

/-- The database as the session sees it. -/
def view (x : Session κ) (db : Database κ) : Database κ :=
  { db with blocks := applyOps db.blocks x.version x.ops }

def blockUid (x : Session κ) (idx : ℕ) : BlockUid := ⟨x.version.id, idx + 1⟩

/-- A call of `set_block`. -/
def setBlock (x : Session κ) (idx : ℕ) (uid : Option BlockUid) (checksum : Option κ)
    (size : ℕ) : Session κ :=
  { x with ops := x.ops ++ [⟨x.version.id, idx, uid, checksum, size, true⟩] }

/-- The rows that `create_blocks` inserts for the first `n` blocks of the package. -/
def storedRows (x : Session κ) (n : ℕ) : List (Block κ) :=
  (x.package.take n).filter fun b => b.uid.isSome ∨ b.size ≠ x.version.blockSize

/-- Nothing that the backup has submitted is outstanding, and it has submitted everything. -/
def AllDone (x : Session κ) : Prop :=
  x.next = x.version.blocksCount ∧ x.loaded.length = 0 ∧ x.reads.length = 0 ∧
    x.writes.length = 0 ∧ x.cow.length = 0

instance {x : Session κ} : Decidable x.AllDone := inferInstanceAs (Decidable (_ ∧ _))

end Session

inductive Event (κ : Type) where
  | create (v : Version)
  /-- A request to back up a version; its source fixes the size and the block size. -/
  | start (id size blockSize : ℕ) (base : Option ℕ) (readBlocks sparseBlocks : List ℕ)
  /-- The request fails before `update_version` has begun its loop. -/
  | refuse (id : ℕ)
  | createCow (v : Version) (base : ℕ)
  | clone (id : ℕ)
  | createBlocks (id n : ℕ)
  | save (id : ℕ)
  | load (id : ℕ)
  | queue (id : ℕ)
  | startLoop (id : ℕ)
  /-- The result of read `k`, with the checksum of the data. -/
  | read (id k : ℕ) (checksum : κ) (pick : ℕ)
  /-- A write job runs; it may raise after the object is written. -/
  | write (ticket : ℕ) (raises : Bool)
  | dropWrite (ticket : ℕ)
  | collect (id k : ℕ)
  | commit (id : ℕ)
  | finish (id : ℕ)
  /-- The backup or the export ends with an exception, or its process does. -/
  | fail (id : ℕ)
  | setInvalid (id : ℕ)
  | cowWrite (id idx : ℕ)
  | startFixate (id : ℕ)
  | fixate (id : ℕ) (checksum : κ) (size : ℕ)
  /-- `set_block` raises in `fixate`, which goes on with the next block. -/
  | fixateFails (id : ℕ) (checksum : κ)
  | fixateDone (id : ℕ)
  | removeVersion (id : ℕ) (date : ℕ → ℕ)
  | cleanup (ids : List ℕ) (objects : List (ℕ × BlockUid))
  | setBlockValid (uid : BlockUid) (valid : Bool)
  | deepScrub (id : ℕ)

namespace State

def putSession (s : State κ) (x : Session κ) : State κ := { s with sessions := s.sessions.put x }

/-- The statement succeeds in the session on version `id`. -/
def onSession (s : State κ) (id : ℕ) (f : Session κ → Option (State κ)) : Option (State κ) :=
  (s.sessions.find? id).bind f

def putObject (s : State κ) (storageId : ℕ) (uid : BlockUid) (o : Option κ) : State κ :=
  { s with
    objects := Function.update s.objects storageId
      (Function.update (s.objects storageId) uid o) }

def create (s : State κ) (v : Version) : Option (State κ) :=
  if v.id = s.nextId ∧ v.status = .incomplete then some { s with
    nextId := s.nextId + 1
    db := { s.db with versions := s.db.versions.put v } }
  else none

/-- The checks of `update_version`; both versions get locked, so they differ. -/
def baseFits (s : State κ) (v : Version) (blockSize base : ℕ) : Option Version :=
  (s.db.versions.find? base).filter fun w =>
    w.status = .valid ∧ w.storage = v.storage ∧ w.blockSize = blockSize ∧ w.id ≠ v.id

def startWith (s : State κ) (v : Version) (size blockSize : ℕ) (base : Option Version)
    (readBlocks sparseBlocks : List ℕ) : State κ :=
  s.putSession ⟨{ v with size := size, blockSize := blockSize }, base, false, readBlocks,
    sparseBlocks, .clone, 0, [], [], [], [], [], 0, 0, 0, 0, []⟩

def start (s : State κ) (id size blockSize : ℕ) (base : Option ℕ)
    (readBlocks sparseBlocks : List ℕ) : Option (State κ) :=
  if s.sessions.find? id = none then
    (s.db.versions.find? id).bind fun v =>
      match base with
      | none => some (s.startWith v size blockSize none readBlocks sparseBlocks)
      | some base => (s.baseFits v blockSize base).map fun w =>
          s.startWith v size blockSize (some w) readBlocks sparseBlocks
  else none

def refuse (s : State κ) (id : ℕ) : Option (State κ) := some { s with failed := id :: s.failed }

def createCow (s : State κ) (v : Version) (base : ℕ) : Option (State κ) :=
  (s.create v).bind fun t =>
    (s.baseFits v v.blockSize base).bind fun w =>
      if v.size = w.size then
        some (t.putSession ⟨v, some w, true, [], [], .clone, 0, [], [], [], [], [], 0, 0, 0, 0, []⟩)
      else none

/-- The block of the base version, while it has one. -/
def oldBlock (db : Database κ) (base : Option Version) (idx : ℕ) : Option (Block κ) :=
  base.bind fun w => if idx < w.blocksCount then some (db.blocks.getBlockByIdx w idx) else none

def clone (s : State κ) (x : Session κ) : Option (State κ) :=
  if x.stage = .clone ∧ x.next < x.version.blocksCount then some (s.putSession { x with
    next := x.next + 1
    package := x.package ++
      [clonedBlock x.version x.next (oldBlock (x.view s.db) x.base x.next)] })
  else none

/-- The session is closed, and what it has not committed is lost. -/
def endSession (s : State κ) (x : Session κ) : State κ :=
  { s with sessions := s.sessions.erase x.id }

def fail (s : State κ) (x : Session κ) : Option (State κ) :=
  some { s.endSession x with failed := if x.nbd then s.failed else x.id :: s.failed }

/-- A key that is taken fails the request. -/
def createBlocks (s : State κ) (n : ℕ) (x : Session κ) : Option (State κ) :=
  if x.stage = .clone then
    match (x.view s.db).blocks.createBlocks x.version (x.package.take n) with
    | some _ => some (s.putSession { x with
        package := x.package.drop n
        ops := x.ops ++ x.storedRows n })
    | none => s.fail x
  else none

/-- The rows and the size of the version go to the database. -/
def committed (s : State κ) (x : Session κ) : Database κ :=
  { s.db.setSize x.id x.version.size x.version.blockSize with
    blocks := applyOps s.db.blocks x.version x.ops }

/-- A commit fails when the version is not there any more. -/
def commitAs (s : State κ) (x y : Session κ) : Option (State κ) :=
  if (s.db.versions.find? x.id).isSome then
    some { s.putSession y with db := s.committed x }
  else none

def commit (s : State κ) (x : Session κ) : Option (State κ) := s.commitAs x { x with ops := [] }

def save (s : State κ) (x : Session κ) : Option (State κ) :=
  if x.stage = .clone ∧ x.next = x.version.blocksCount ∧ x.package.length = 0 then
    s.commitAs x { x with
      ops := []
      stage := if x.nbd then .cow else .queue
      next := if x.nbd then x.next else 0 }
  else none

def load (s : State κ) (x : Session κ) : Option (State κ) :=
  if x.stage = .queue ∧ x.next < x.version.blocksCount then some (s.putSession { x with
    next := x.next + 1
    loaded := x.loaded ++ [(x.view s.db).blocks.getBlockByIdx x.version x.next] })
  else none

def queue (s : State κ) (x : Session κ) : Option (State κ) :=
  match x.stage, x.loaded with
  | .queue, block :: rest =>
    if block.idx ∈ x.readBlocks ∨ block.valid = false then some (s.putSession { x with
      loaded := rest
      reads := x.reads ++ [block]
      readJobs := x.readJobs + 1 })
    else if block.idx ∈ x.sparseBlocks ∧ block.uid.isSome then
      some (s.putSession ({ x with loaded := rest }.setBlock block.idx none none block.size))
    else some (s.putSession { x with loaded := rest })
  | _, _ => none

def startLoop (s : State κ) (x : Session κ) : Option (State κ) :=
  if x.stage = .queue ∧ x.next = x.version.blocksCount ∧ x.loaded.length = 0 then
    some (s.putSession { x with stage := .loop })
  else none

/-- The session once it has taken the result of read `k`. -/
def taken (x : Session κ) (k : ℕ) : Session κ :=
  { x with reads := x.reads.eraseIdx k, doneReadJobs := x.doneReadJobs + 1 }

def newJob (s : State κ) (x : Session κ) (block : Block κ) (checksum : κ) : Job κ where
  ticket := s.nextTicket
  storageId := x.version.storage.id
  idx := block.idx
  uid := x.blockUid block.idx
  checksum := checksum
  size := block.size

def addJob (x : Session κ) (job : Job κ) : Session κ :=
  { x with writes := x.writes ++ [job], writeJobs := x.writeJobs + 1 }

/-- It's a new block. -/
def submit (s : State κ) (x : Session κ) (block : Block κ) (checksum : κ) : State κ :=
  { s.putSession (addJob x (s.newJob x block checksum)) with
    nextTicket := s.nextTicket + 1
    jobs := s.jobs.put (s.newJob x block checksum) }

/-- The existing block that a block with this checksum and size shares. -/
def known [DecidableEq κ] (s : State κ) (x : Session κ) (size : ℕ) (checksum : κ) (pick : ℕ) :
    Option (Block κ) :=
  ((x.view s.db).getBlockByChecksum x.version checksum pick).filter fun b => b.size = size

def read [DecidableEq κ] (sparseChecksum : ℕ → κ) (s : State κ) (k : ℕ) (checksum : κ)
    (pick : ℕ) (x : Session κ) : Option (State κ) :=
  if x.stage = .loop then x.reads[k]?.map fun block =>
    if checksum = sparseChecksum x.version.blockSize ∧ block.size = x.version.blockSize then
      s.putSession ((taken x k).setBlock block.idx none none block.size)
    else match s.known x block.size checksum pick with
      | some b => s.putSession ((taken x k).setBlock block.idx b.uid b.checksum b.size)
      | none => s.submit (taken x k) block checksum
  else none

def write (s : State κ) (ticket : ℕ) (raises : Bool) : Option (State κ) :=
  (s.jobs.find? ticket).map fun j =>
    { s.putObject j.storageId j.uid (some j.checksum) with
      jobs := s.jobs.erase ticket
      written := if raises then s.written else ticket :: s.written }

def dropWrite (s : State κ) (ticket : ℕ) : Option (State κ) :=
  some { s with jobs := s.jobs.erase ticket }

def collect (s : State κ) (k : ℕ) (x : Session κ) : Option (State κ) :=
  if x.stage = .loop then (x.writes[k]?.filter fun j => j.ticket ∈ s.written).map fun j =>
    s.putSession ({ x with
      writes := x.writes.eraseIdx k
      doneWriteJobs := x.doneWriteJobs + 1 }.setBlock j.idx (some j.uid) (some j.checksum) j.size)
  else none

/-- The version is valid from now on. -/
def complete (s : State κ) (x : Session κ) : Option (State κ) :=
  if (s.db.versions.find? x.id).isSome ∧ x.ops.length = 0 then some { s.endSession x with
    db := s.db.setStatus x.id .valid
    completed := if x.AllDone then x.id :: s.completed else s.completed }
  else none

/-- The two checks that the numbers of jobs are consistent. -/
def finish (s : State κ) (x : Session κ) : Option (State κ) :=
  if x.stage = .loop ∧ x.readJobs = x.doneReadJobs ∧ x.writeJobs = x.doneWriteJobs then
    s.complete x
  else none

def setInvalid (s : State κ) (id : ℕ) : Option (State κ) :=
  if id ∈ s.failed then some { s with
    db := s.db.setStatus id .invalid
    failed := s.failed.erase id }
  else none

/-- The first write to a block of the export. -/
def cowWrite (s : State κ) (idx : ℕ) (x : Session κ) : Option (State κ) :=
  if x.stage = .cow ∧ idx ∉ x.cow then some (s.putSession { x with cow := x.cow ++ [idx] })
  else none

def startFixate (s : State κ) (x : Session κ) : Option (State κ) :=
  if x.stage = .cow then some (s.putSession { x with stage := .fixate }) else none

/-- `fixate` takes a block as sparse by its checksum alone. -/
def fixate [DecidableEq κ] (sparseChecksum : ℕ → κ) (s : State κ) (checksum : κ) (size : ℕ)
    (x : Session κ) : Option (State κ) :=
  match x.stage, x.cow with
  | .fixate, idx :: rest =>
    if checksum = sparseChecksum x.version.blockSize then
      some (s.putSession ({ x with cow := rest }.setBlock idx none none size))
    else some ((s.putObject x.version.storage.id (x.blockUid idx) (some checksum)).putSession
      ({ x with cow := rest }.setBlock idx (some (x.blockUid idx)) (some checksum) size))
  | _, _ => none

/-- The rollback drops every row that is not committed; the object is written and removed. -/
def fixateFails [DecidableEq κ] (sparseChecksum : ℕ → κ) (s : State κ) (checksum : κ)
    (x : Session κ) : Option (State κ) :=
  match x.stage, x.cow with
  | .fixate, idx :: rest =>
    if checksum = sparseChecksum x.version.blockSize then
      some (s.putSession { x with cow := rest, ops := [] })
    else some ((s.putObject x.version.storage.id (x.blockUid idx) none).putSession
      { x with cow := rest, ops := [] })
  | _, _ => none

def fixateDone (s : State κ) (x : Session κ) : Option (State κ) :=
  if x.stage = .fixate ∧ x.cow.length = 0 then s.complete x else none

def removeVersion (s : State κ) (id : ℕ) (date : ℕ → ℕ) : Option (State κ) :=
  (s.db.versions.find? id).map fun v => { s with db := s.db.removeVersion v date }

/-- Whatever the runs of the garbage collection remove. -/
def cleanup (s : State κ) (ids : List ℕ) (objects : List (ℕ × BlockUid)) : Option (State κ) :=
  some { objects.foldl (fun s o => s.putObject o.1 o.2 none) s with
    db := { s.db with deletedBlocks := s.db.deletedBlocks.filter fun d => d.id ∉ ids } }

def setBlockValid (s : State κ) (uid : BlockUid) (valid : Bool) : Option (State κ) :=
  some { s with db := s.db.setBlockValid (some uid) valid }

def AllSparse (s : State κ) (v : Version) : Prop :=
  ∀ idx < v.blocksCount, (s.db.blocks.getBlockByIdx v idx).uid = none

instance {s : State κ} {v : Version} : Decidable (s.AllSparse v) :=
  inferInstanceAs (Decidable (∀ idx < v.blocksCount, _))

/-- A deep-scrub that has anything to read raises and changes nothing. -/
def deepScrub (s : State κ) (id : ℕ) : Option (State κ) :=
  if s.sessions.find? id = none then
    (s.db.versions.find? id).bind fun v =>
      if v.status.isDeepScrubbable = true then
        some (if s.AllSparse v then { s with db := s.db.setStatus id .valid } else s)
      else none
  else none

end State

open State in
/-- `sparseChecksum` is the checksum of a block of zeros of the given size. -/
def step [DecidableEq κ] (sparseChecksum : ℕ → κ) (s : State κ) : Event κ → Option (State κ)
  | .create v => s.create v
  | .start id size blockSize base readBlocks sparseBlocks =>
    s.start id size blockSize base readBlocks sparseBlocks
  | .refuse id => s.refuse id
  | .createCow v base => s.createCow v base
  | .clone id => s.onSession id s.clone
  | .createBlocks id n => s.onSession id (s.createBlocks n)
  | .save id => s.onSession id s.save
  | .load id => s.onSession id s.load
  | .queue id => s.onSession id s.queue
  | .startLoop id => s.onSession id s.startLoop
  | .read id k checksum pick => s.onSession id (s.read sparseChecksum k checksum pick)
  | .write ticket raises => s.write ticket raises
  | .dropWrite ticket => s.dropWrite ticket
  | .collect id k => s.onSession id (s.collect k)
  | .commit id => s.onSession id s.commit
  | .finish id => s.onSession id s.finish
  | .fail id => s.onSession id s.fail
  | .setInvalid id => s.setInvalid id
  | .cowWrite id idx => s.onSession id (s.cowWrite idx)
  | .startFixate id => s.onSession id s.startFixate
  | .fixate id checksum size => s.onSession id (s.fixate sparseChecksum checksum size)
  | .fixateFails id checksum => s.onSession id (s.fixateFails sparseChecksum checksum)
  | .fixateDone id => s.onSession id s.fixateDone
  | .removeVersion id date => s.removeVersion id date
  | .cleanup ids objects => s.cleanup ids objects
  | .setBlockValid uid valid => s.setBlockValid uid valid
  | .deepScrub id => s.deepScrub id

/-- An installation in which nothing has been backed up. -/
def init : State κ where
  nextId := 1
  nextTicket := 0
  db := ⟨.empty, .empty, .empty, .empty⟩
  objects := fun _ _ => none
  sessions := .empty
  jobs := .empty
  written := []
  failed := []
  completed := []

end Benji.Servicer

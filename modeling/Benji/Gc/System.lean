import Benji.Database.Writes
import Benji.Lib.Steps

/-! Backups, version removals and runs of `cleanup` and `clean` that share a database and the
storages, one statement or object access at a time. -/
namespace Benji.Gc
open Lib

variable {κ : Type}

/-- The arguments of a `set_block` that is not committed, and the time since when the backup
relies on the object of the uid. -/
structure Op (κ : Type) where
  idx : ℕ
  uid : Option BlockUid
  checksum : Option κ
  size : ℕ
  valid : Bool
  since : ℕ

/-- A running backup with its database session. -/
structure Session (κ : Type) where
  version : Version
  ops : List (Op κ) := []
  /-- The blocks submitted for writing; no block is submitted twice. -/
  handled : List ℕ := []
  /-- Those whose object is written and whose result has not been taken. -/
  inFlight : List ℕ := []

def Session.id (x : Session κ) : ℕ := x.version.id

/-- How far a run of `get_unused_block_uids` and the loop around it have come. -/
inductive Stage where
  | select
  | check (candidates : List DeletedBlock) (falsePositives : List BlockUid)
      (hitList : List (ℕ × BlockUid))
  | dropHits (hitList : List (ℕ × BlockUid))
  | remove (hitList jobs : List (ℕ × BlockUid))

/-- The objects a run is going to remove, unless it fails. -/
def Stage.hits : Stage → List (ℕ × BlockUid)
  | select => []
  | check _ _ hitList => hitList
  | dropHits hitList => hitList
  | remove hitList jobs => hitList ++ jobs

structure Run where
  /-- The storage of a `clean`; a `cleanup` has none. Either holds the lock of its name. -/
  storageId : Option ℕ
  cutOffDate : ℕ
  stage : Stage := .select
  /-- The `deleted_blocks` rows that the session has deleted and not committed. -/
  deleting : List ℕ := []

/-- The two branches of the query: only a `cleanup` looks at the date. -/
def Run.selects (r : Run) (d : DeletedBlock) : Bool :=
  match r.storageId with
  | some storageId => d.storageId = storageId
  | none => d.date < r.cutOffDate

structure State (κ : Type) where
  now : ℕ
  nextId : ℕ
  db : Database κ
  objects : List (ℕ × BlockUid)
  sessions : Table (Session.id (κ := κ))
  runs : Table Run.storageId
  /-- Submitted removals that outlive the run that submitted them. -/
  orphans : List (ℕ × BlockUid)
  /-- The storage of each version there has been. -/
  home : ℕ → ℕ
  /-- The uids that committed rows have had. -/
  referenced : List BlockUid

def applyOps (t : BlockTable κ) (v : Version) (ops : List (Op κ)) : BlockTable κ :=
  ops.foldl (fun t op => t.setBlock v op.idx op.uid op.checksum op.size op.valid) t

/-- The database as the session sees it. -/
def Session.view (x : Session κ) (db : Database κ) : Database κ :=
  { db with blocks := applyOps db.blocks x.version x.ops }

/-- Since when the session relies on a uid it looks up now: a row of its own that is not
committed is as old as the lookup it stems from. -/
def Session.since (x : Session κ) (now : ℕ) (uid : Option BlockUid) : ℕ :=
  match x.ops.find? fun op => op.uid = uid with
  | some op => op.since
  | none => now

/-- Every lookup that the session relies on is at most `dt` old. -/
def Session.Live (dt now : ℕ) (x : Session κ) : Prop := ∀ op ∈ x.ops, now ≤ op.since + dt

instance {dt now : ℕ} {x : Session κ} : Decidable (x.Live dt now) :=
  inferInstanceAs (Decidable (∀ op ∈ x.ops, now ≤ op.since + dt))

def Session.addOp (x : Session κ) (op : Op κ) : Session κ := { x with ops := x.ops ++ [op] }

inductive Event (κ : Type) where
  | tick
  /-- A version is created and its backup starts. -/
  | create (v : Version)
  /-- A row of the base version is cloned. -/
  | clone (id baseId idx : ℕ)
  | dedup (id idx : ℕ) (checksum : κ) (size pick : ℕ)
  | sparse (id idx size : ℕ)
  | write (id idx : ℕ)
  | collect (id idx : ℕ) (checksum : κ) (size : ℕ)
  | commit (id : ℕ)
  /-- The backup is over, or has failed: the session is closed. -/
  | close (id : ℕ)
  | removeVersion (id : ℕ) (date : ℕ → ℕ)
  | startRun (storageId : Option ℕ)
  | select (storageId : Option ℕ) (ids : List ℕ)
  | check (storageId : Option ℕ)
  | dropFalsePositives (storageId : Option ℕ)
  | dropHits (storageId : Option ℕ)
  | submit (storageId : Option ℕ)
  | rmBlock (storageId : Option ℕ) (job : ℕ × BlockUid)
  /-- A removal raises, with or without the object being gone. -/
  | rmFails (storageId : Option ℕ) (job : ℕ × BlockUid) (gone : Bool)
  | rmOrphan (job : ℕ × BlockUid)
  | commitRun (storageId : Option ℕ)
  | finishRun (storageId : Option ℕ)

namespace State

def putSession (s : State κ) (x : Session κ) : State κ := { s with sessions := s.sessions.put x }

def putRun (s : State κ) (r : Run) : State κ := { s with runs := s.runs.put r }

/-- The statement succeeds on the session of backup `id`. -/
def onSession (s : State κ) (id : ℕ) (f : Session κ → Option (State κ)) : Option (State κ) :=
  (s.sessions.find? id).bind f

def onRun (s : State κ) (storageId : Option ℕ) (f : Run → Option (State κ)) : Option (State κ) :=
  (s.runs.find? storageId).bind f

def create (s : State κ) (v : Version) : Option (State κ) :=
  if v.id = s.nextId then some { s with
    nextId := s.nextId + 1
    db := { s.db with versions := s.db.versions.put v }
    sessions := s.sessions.put { version := v }
    home := Function.update s.home v.id v.storage.id }
  else none

/-- The row of base version `baseId` as `update_version` clones it. -/
def clone (s : State κ) (baseId idx : ℕ) (x : Session κ) : Option (State κ) :=
  match s.db.versions.find? baseId with
  | none => none
  | some base => match s.db.blocks.row? base idx with
    | none => none
    | some b =>
      if base.storage = x.version.storage then
        some (s.putSession (x.addOp ⟨idx, b.uid, b.checksum, b.size, b.valid, x.since s.now b.uid⟩))
      else none

def dedup [DecidableEq κ] (s : State κ) (idx : ℕ) (checksum : κ) (size pick : ℕ)
    (x : Session κ) : Option (State κ) :=
  match (x.view s.db).getBlockByChecksum x.version checksum pick with
  | none => none
  | some b =>
    if b.size = size then
      some (s.putSession (x.addOp ⟨idx, b.uid, b.checksum, b.size, true, x.since s.now b.uid⟩))
    else none

def sparse (s : State κ) (idx size : ℕ) (x : Session κ) : Option (State κ) :=
  some (s.putSession (x.addOp ⟨idx, none, none, size, true, s.now⟩))

def blockUid (x : Session κ) (idx : ℕ) : BlockUid := ⟨x.version.id, idx + 1⟩

def write (s : State κ) (idx : ℕ) (x : Session κ) : Option (State κ) :=
  if idx ∈ x.handled then none
  else some { s.putSession { x with
      handled := idx :: x.handled, inFlight := idx :: x.inFlight } with
    objects := (x.version.storage.id, blockUid x idx) :: s.objects }

def collect (s : State κ) (idx : ℕ) (checksum : κ) (size : ℕ) (x : Session κ) :
    Option (State κ) :=
  if idx ∈ x.inFlight then some (s.putSession
    { x.addOp ⟨idx, some (blockUid x idx), some checksum, size, true, s.now⟩ with
      inFlight := x.inFlight.filter fun i => i ≠ idx })
  else none

/-- A commit comes at most `dt` after the lookups it relies on; it fails when the version is
not there any more. -/
def commit (dt : ℕ) (s : State κ) (x : Session κ) : Option (State κ) :=
  if s.db.versions.find? x.id = some x.version ∧ x.Live dt s.now then
    some { s.putSession { x with ops := [] } with
      db := { s.db with blocks := applyOps s.db.blocks x.version x.ops }
      referenced := (applyOps s.db.blocks x.version x.ops).rows.filterMap Block.uid ++
        s.referenced }
  else none

def close (s : State κ) (x : Session κ) : Option (State κ) :=
  some { s with sessions := s.sessions.erase x.id }

/-- `Version.remove` reads the clock once for each block, and then commits. -/
def removeVersion (s : State κ) (id : ℕ) (date : ℕ → ℕ) : Option (State κ) :=
  match s.db.versions.find? id with
  | none => none
  | some v =>
    if ∀ b ∈ s.db.blocks.rows, b.versionId = v.id → date b.idx ≤ s.now then
      some { s with db := s.db.removeVersion v date }
    else none

def startRun (dt : ℕ) (s : State κ) (storageId : Option ℕ) : Option (State κ) :=
  match s.runs.find? storageId with
  | some _ => none
  | none => some (s.putRun { storageId := storageId, cutOffDate := s.now - dt })

/-- The rows the query selects from; the session does not see those it has deleted. -/
def eligible (s : State κ) (r : Run) : List DeletedBlock :=
  s.db.deletedBlocks.rows.filter fun d => d.id ∉ r.deleting && r.selects d

/-- `LIMIT 250` in a `cleanup` leaves it to the database which rows it returns. -/
def chosen (s : State κ) (r : Run) (ids : List ℕ) : List DeletedBlock :=
  match r.storageId with
  | some _ => s.eligible r
  | none => (s.eligible r).filter fun d => d.id ∈ ids

def select (s : State κ) (ids : List ℕ) (r : Run) : Option (State κ) :=
  match r.stage with
  | .select =>
    if s.chosen r ids ≠ [] ∧ (r.storageId = none →
        (s.chosen r ids).length = min 250 (s.eligible r).length) then
      some (s.putRun { r with stage := .check (s.chosen r ids) [] [] })
    else none
  | .check _ _ _ => none
  | .dropHits _ => none
  | .remove _ _ => none

/-- Whether any row has the uid. -/
def inUse (s : State κ) (uid : BlockUid) : Bool := s.db.blocks.rows.any fun b => b.uid = some uid

/-- The next candidate is a false positive or goes to the hit list. -/
def check (s : State κ) (r : Run) : Option (State κ) :=
  match r.stage with
  | .check (c :: candidates) falsePositives hitList =>
    if s.inUse c.uid then some (s.putRun { r with
      stage := .check candidates (falsePositives.insert c.uid) hitList })
    else some (s.putRun { r with
      stage := .check candidates falsePositives (hitList.insert (c.storageId, c.uid)) })
  | .check [] _ _ => none
  | .select => none
  | .dropHits _ => none
  | .remove _ _ => none

/-- `DELETE FROM deleted_blocks WHERE uid IN ..`; a row that another session has deleted and not
committed holds the statement up. -/
def deleteRows (s : State κ) (uids : List BlockUid) (r : Run) (next : Stage) : Option (State κ) :=
  if ∀ d ∈ s.db.deletedBlocks.rows, d.uid ∈ uids →
      ∀ r' ∈ s.runs.rows, r'.storageId ≠ r.storageId → d.id ∉ r'.deleting then
    some (s.putRun { r with
      stage := next
      deleting := (s.db.deletedBlocks.rows.filter fun d => d.uid ∈ uids).map DeletedBlock.id ++
        r.deleting })
  else none

def dropFalsePositives (s : State κ) (r : Run) : Option (State κ) :=
  match r.stage with
  | .check [] falsePositives hitList => s.deleteRows falsePositives r (.dropHits hitList)
  | .check (_ :: _) _ _ => none
  | .select => none
  | .dropHits _ => none
  | .remove _ _ => none

/-- Without hits there is neither a `yield` nor a commit. -/
def dropHits (s : State κ) (r : Run) : Option (State κ) :=
  match r.stage with
  | .dropHits [] => some (s.putRun { r with stage := .select })
  | .dropHits (h :: hitList) =>
    s.deleteRows ((h :: hitList).map Prod.snd) r (.remove (h :: hitList) [])
  | .select => none
  | .check _ _ _ => none
  | .remove _ _ => none

/-- The removals of one storage are submitted together. -/
def submit (s : State κ) (r : Run) : Option (State κ) :=
  match r.stage with
  | .remove (h :: hitList) [] => some (s.putRun { r with
      stage := .remove ((h :: hitList).filter fun j => j.1 ≠ h.1)
        ((h :: hitList).filter fun j => j.1 = h.1) })
  | .remove [] _ => none
  | .remove (_ :: _) (_ :: _) => none
  | .select => none
  | .check _ _ _ => none
  | .dropHits _ => none

def removeObject (s : State κ) (job : ℕ × BlockUid) : State κ :=
  { s with objects := s.objects.filter fun o => o ≠ job }

/-- `_rm_block`, also where the object is not found. -/
def rmBlock (s : State κ) (job : ℕ × BlockUid) (r : Run) : Option (State κ) :=
  match r.stage with
  | .remove hitList jobs =>
    if job ∈ jobs then some ((s.removeObject job).putRun { r with
      stage := .remove hitList (jobs.filter fun j => j ≠ job) })
    else none
  | .select => none
  | .check _ _ _ => none
  | .dropHits _ => none

/-- The commit of a run's session, whether the run goes on or ends. -/
def commitDeleting (s : State κ) (r : Run) : State κ :=
  { s with db := { s.db with
      deletedBlocks := s.db.deletedBlocks.filter fun d => d.id ∉ r.deleting } }

def endRun (s : State κ) (r : Run) : State κ :=
  { s.commitDeleting r with runs := s.runs.erase r.storageId }

/-- The exception leaves the generator suspended, and the release of the lock commits. -/
def rmFails (s : State κ) (job : ℕ × BlockUid) (gone : Bool) (r : Run) : Option (State κ) :=
  match r.stage with
  | .remove _ jobs =>
    if job ∈ jobs then some { (if gone then s.removeObject job else s).endRun r with
      orphans := s.orphans ++ jobs.filter fun j => j ≠ job }
    else none
  | .select => none
  | .check _ _ _ => none
  | .dropHits _ => none

def rmOrphan (s : State κ) (job : ℕ × BlockUid) : Option (State κ) :=
  if job ∈ s.orphans then some { s.removeObject job with
    orphans := s.orphans.filter fun j => j ≠ job }
  else none

/-- The commit after the `yield`. -/
def commitRun (s : State κ) (r : Run) : Option (State κ) :=
  match r.stage with
  | .remove [] [] => some ((s.commitDeleting r).putRun { r with stage := .select, deleting := [] })
  | .remove [] (_ :: _) => none
  | .remove (_ :: _) _ => none
  | .select => none
  | .check _ _ _ => none
  | .dropHits _ => none

def finishRun (s : State κ) (r : Run) : Option (State κ) :=
  match r.stage with
  | .select => if s.eligible r = [] then some (s.endRun r) else none
  | .check _ _ _ => none
  | .dropHits _ => none
  | .remove _ _ => none

end State

open State in
def step [DecidableEq κ] (dt : ℕ) (s : State κ) : Event κ → Option (State κ)
  | .tick => some { s with now := s.now + 1 }
  | .create v => s.create v
  | .clone id baseId idx => s.onSession id (s.clone baseId idx)
  | .dedup id idx checksum size pick => s.onSession id (s.dedup idx checksum size pick)
  | .sparse id idx size => s.onSession id (s.sparse idx size)
  | .write id idx => s.onSession id (s.write idx)
  | .collect id idx checksum size => s.onSession id (s.collect idx checksum size)
  | .commit id => s.onSession id (s.commit dt)
  | .close id => s.onSession id s.close
  | .removeVersion id date => s.removeVersion id date
  | .startRun storageId => s.startRun dt storageId
  | .select storageId ids => s.onRun storageId (s.select ids)
  | .check storageId => s.onRun storageId s.check
  | .dropFalsePositives storageId => s.onRun storageId s.dropFalsePositives
  | .dropHits storageId => s.onRun storageId s.dropHits
  | .submit storageId => s.onRun storageId s.submit
  | .rmBlock storageId job => s.onRun storageId (s.rmBlock job)
  | .rmFails storageId job gone => s.onRun storageId (s.rmFails job gone)
  | .rmOrphan job => s.rmOrphan job
  | .commitRun storageId => s.onRun storageId s.commitRun
  | .finishRun storageId => s.onRun storageId s.finishRun

/-- An installation in which nothing has been backed up. -/
def init : State κ where
  now := 0
  nextId := 1
  db := ⟨.empty, .empty, .empty, .empty⟩
  objects := []
  sessions := .empty
  runs := .empty
  orphans := []
  home := fun _ => 0
  referenced := []

end Benji.Gc

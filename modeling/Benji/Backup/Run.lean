import Benji.Backup.Queue

/-! `Benji.backup`: opening the source, preparing the version, the checks on the hints, the
block loop, and what is left to do when every block is in place. -/
namespace Benji
open Lib

variable {κ : Type}

/-- What a run does not decide itself: the clock, random numbers, the order in which reads and
writes complete, and whether writing the metadata backup fails. -/
structure Schedule where
  createDue : ℕ → Bool
  queueDue : ℕ → Bool
  removeDate : ℕ → ℕ
  /-- `random.sample`. -/
  sample : List ℕ → ℕ → List ℕ
  /-- The order in which the reads of the sanity check complete. -/
  checkOrder : List ℕ
  events : List Loop.Event
  metadataError : Option Error

namespace Loop

/-- The body of the `try` around the block loop. -/
def run [DecidableEq κ] (S : Settings κ) (version : Version) (io : Source)
    (sparseBlocks readBlocks : List ℕ) (sched : Schedule) : Proc Error (Loop κ) Unit := do
  let L ← Proc.get
  Proc.forEach (queueBlock version sparseBlocks readBlocks sched.queueDue)
    (L.world.db.blocks.blocks S.blocksPerCall version)
  Proc.forEach (step S version io) sched.events
  waitForAll

end Loop

/-- `(sparse_blocks, read_blocks)`. -/
def blocksToCopy (version : Version) (sourceSize : ℕ) :
    Option (List Hint) → Action κ (List ℕ × List ℕ)
  | none => pure ([], List.range version.blocksCount)
  | some [] => pure ([], [])
  | some (h :: hints) => do
    Proc.raiseIf (sourceSize < ((h :: hints).map fun h => h.offset + h.length).foldl max 0)
      (.inputDataError "Hints have higher offsets than source file.")
    pure (blocksFromHints (h :: hints) version.blockSize)

def removeVersion (version : Version) (date : ℕ → ℕ) (w : World κ) : World κ :=
  (w.mapDb fun db => db.removeVersion version date).commit

/-- One completed read of the sanity check. -/
def checkBlock [DecidableEq κ] (S : Settings κ) (version : Version) (io : Source)
    (date : ℕ → ℕ) (block : Block κ) : Action κ Unit := fun w =>
  match io.read version.blockSize block with
  | .error e => Proc.raise e w
  | .ok data =>
    if block.checksum = some (S.dataHexdigest data) then Proc.modify id w
    else (do
      Proc.modify (removeVersion version date)
      Locking.unlockVersion S.me version.uid
      Proc.raise (.inputDataError
        "Source changed in regions outside of ones indicated by the hints.") : Action κ Unit) w

/-- Some blocks outside of the hints are compared with the source. -/
def sanityCheck [DecidableEq κ] (S : Settings κ) (version : Version) (io : Source)
    (sparseBlocks readBlocks : List ℕ) (sched : Schedule) : Action κ Unit := fun w =>
  let ignoredBlocks := (List.range version.blocksCount).filter fun idx =>
    idx ∉ readBlocks ∧ idx ∉ sparseBlocks
  let checkBlocksCount := max (min ignoredBlocks.length 10) (ignoredBlocks.length / 1000)
  let checkBlocks := (ignoredBlocks.take (checkBlocksCount / 2) ++
    sched.sample ignoredBlocks (checkBlocksCount / 2)).dedup
  let jobs := (checkBlocks.map (w.db.blocks.getBlockByIdx version)).filter fun block =>
    block.uid.isSome ∧ block.valid = true
  if sched.checkOrder.Perm (jobs.map Block.idx) then
    Proc.forEach (checkBlock S version io sched.removeDate)
      (sched.checkOrder.map (w.db.blocks.getBlockByIdx version)) w
  else none

def checkHints [DecidableEq κ] (S : Settings κ) (version : Version) (io : Source)
    (hints : Option (List Hint)) (baseVersionUid : Option String) (sparseBlocks readBlocks : List ℕ)
    (sched : Schedule) : Action κ Unit :=
  if baseVersionUid.isSome ∧ hints.isSome then
    sanityCheck S version io sparseBlocks readBlocks sched
  else Proc.modify id

/-- `Benji.metadata_backup` of one version, without locking and overwriting. -/
def metadataBackup (versionUid : String) (failure : Option Error) : Action κ Unit := do
  let w ← Proc.get
  let version ← Proc.ofOption (w.db.getByUid versionUid)
    (.keyError s!"Version {versionUid} not found.")
  match failure with
  | some e => Proc.raise e
  | none => Proc.modify fun w => { w with
      versionObjects := fun storage uid =>
        if storage = version.storage.id ∧ uid = versionUid then
          some (version, w.db.blocks.rows.filter fun b => b.versionId = version.id)
        else w.versionObjects storage uid }

def setStatus (id : ℕ) (status : VersionStatus) (w : World κ) : World κ :=
  (w.mapDb fun db => db.setStatus id status).commit

def Database.setStats (db : Database κ) (id : ℕ) (stats : Stats) : Database κ :=
  { db with versions := mapVersions db.versions (fun w => w.id = id)
                          (fun w => { w with stats := some stats }) fun _ => rfl }

/-- The block loop with its handler: every exit of it commits. -/
def copyBlocks [DecidableEq κ] (S : Settings κ) (version : Version) (io : Source)
    (sparseBlocks readBlocks : List ℕ) (sched : Schedule) : Action κ (Unit × Loop κ) :=
  Proc.tryFinally
    (Proc.tryExcept
      (Proc.zoom (fun w => { world := w }) Loop.world
        (Loop.run S version io sparseBlocks readBlocks sched))
      fun e => do
        Locking.unlockVersion S.me version.uid
        Proc.raise e)
    (Proc.modify World.commit)

def doCreateBackup [DecidableEq κ] (S : Settings κ) (version : Version) (io : Source)
    (hints : Option (List Hint)) (baseVersionUid : Option String) (sched : Schedule) :
    Action κ Stats := do
  Locking.updateVersionLock S.me version.uid "Backing up"
  let sets ← blocksToCopy version io.data.length hints
  checkHints S version io hints baseVersionUid sets.1 sets.2 sched
  let r ← copyBlocks S version io sets.1 sets.2 sched
  Proc.raiseIf (r.2.readJobs ≠ r.2.doneReadJobs)
    (jobsMessage "read" r.2.readJobs r.2.doneReadJobs)
  Proc.raiseIf (r.2.writeJobs ≠ r.2.doneWriteJobs)
    (jobsMessage "write" r.2.writeJobs r.2.doneWriteJobs)
  Proc.modify (setStatus version.id .valid)
  metadataBackup version.uid sched.metadataError
  Proc.modify fun w => (w.mapDb fun db => db.setStats version.id r.2.stats).commit
  Locking.unlockVersion S.me version.uid
  pure r.2.stats

/-- `none` for a source that cannot be opened. -/
def backup [DecidableEq κ] (S : Settings κ) (version : Version) (source : Option Source)
    (hints : Option (List Hint)) (baseVersionUid : Option String) (sched : Schedule) :
    Action κ Version := do
  let newVersionBlockSize := if version.blockSize ≠ 0 then version.blockSize else S.blockSize
  let io ← Proc.ofOption source .fileNotFoundError
  let version ← updateVersion S version (some newVersionBlockSize) (some io.data.length)
    baseVersionUid true sched.createDue
  let stats ← doCreateBackup S version io hints baseVersionUid sched
  pure { version with status := .valid, stats := some stats }

section Spec
variable {S : Settings κ} {version : Version} {io : Source} {hints : Option (List Hint)}
  {base : Option String} {sched : Schedule} {w u : World κ} {sparseBlocks readBlocks : List ℕ}

theorem blocksToCopy_state {size : ℕ} {sets : List ℕ × List ℕ}
    (h : (blocksToCopy version size hints).Returns w sets u) : w = u := by
  unfold blocksToCopy at h
  split at h
  · exact (Proc.returns_pure.mp h).2
  · exact (Proc.returns_pure.mp h).2
  · obtain ⟨_, w1, h1, h2⟩ := Proc.returns_bind.mp h
    exact (Proc.returns_raiseIf.mp h1).2.trans (Proc.returns_pure.mp h2).2

theorem metadataBackup_spec {versionUid : String} {failure : Option Error}
    (h : (metadataBackup versionUid failure).Returns w () u) :
    u.db = w.db ∧ u.objects = w.objects := by
  unfold metadataBackup at h
  obtain ⟨_, w1, h1, h⟩ := Proc.returns_bind.mp h
  obtain ⟨rfl, rfl⟩ := Proc.returns_get.mp h1
  obtain ⟨v, w2, h2, h⟩ := Proc.returns_bind.mp h
  obtain ⟨-, rfl⟩ := Proc.returns_ofOption.mp h2
  cases failure with
  | some e => exact absurd h Proc.returns_raise
  | none =>
    obtain rfl := Proc.returns_modify.mp h
    exact ⟨rfl, rfl⟩

variable [DecidableEq κ]

theorem checkBlock_spec {date : ℕ → ℕ} {block : Block κ}
    (h : (checkBlock S version io date block).Returns w () u) : w = u := by
  unfold Proc.Returns checkBlock at h
  split at h
  · exact absurd h Proc.returns_raise
  · split at h
    · simpa [Proc.modify] using h
    · exfalso
      have hr := Proc.returns_bind.mp h
      obtain ⟨_, _, -, hr⟩ := hr
      obtain ⟨_, _, -, hr⟩ := Proc.returns_bind.mp hr
      exact Proc.returns_raise hr

/-- The sanity check changes nothing, or it raises. -/
theorem checkHints_spec
    (h : (checkHints S version io hints base sparseBlocks readBlocks sched).Returns w () u) :
    w = u := by
  unfold checkHints at h
  split at h
  · unfold Proc.Returns sanityCheck at h
    dsimp only at h
    split at h
    · exact Proc.forEach_invariant (I := fun x => w = x) h rfl
        fun _ hI hs => hI.trans (checkBlock_spec hs)
    · simp at h
  · exact Proc.returns_modify.mp h

theorem copyBlocks_spec {L : Loop κ}
    (h : (copyBlocks S version io sparseBlocks readBlocks sched).Returns w ((), L) u) :
    (Loop.run S version io sparseBlocks readBlocks sched).Returns { world := w } () L ∧
      L.world.commit = u := by
  simp only [copyBlocks, Proc.returns_tryFinally, Proc.returns_tryExcept, Proc.returns_bind,
    Proc.returns_raise, Proc.returns_modify] at h
  obtain ⟨t, hz | ⟨e, x, -, _, y, -, hf⟩, rfl⟩ := h
  · obtain ⟨hrun, hw⟩ := Proc.returns_zoom.mp hz
    exact ⟨hrun, by rw [hw]⟩
  · exact absurd hf id

/-- What a returning backup leaves behind: the rows and objects as the block loop left them,
and the version's row with its new status and statistics. -/
structure BackupDone (version : Version) (L : Loop κ) (u : World κ) : Prop where
  blocks : u.db.blocks = L.world.db.blocks
  objects : u.objects = L.world.objects
  versions : u.db.versions = ((L.world.db.setStatus version.id .valid).setStats version.id
    L.stats).versions
  readJobs : L.readJobs = L.doneReadJobs
  writeJobs : L.writeJobs = L.doneWriteJobs

theorem doCreateBackup_spec {stats : Stats}
    (h : (doCreateBackup S version io hints base sched).Returns w stats u) :
    ∃ sets w1 L, (blocksToCopy version io.data.length hints).Returns w1 sets w1 ∧
      w.UpToLocks w1 ∧
      (Loop.run S version io sets.1 sets.2 sched).Returns { world := w1 } () L ∧
      stats = L.stats ∧ BackupDone version L u := by
  simp only [doCreateBackup, Proc.returns_bind, Proc.returns_raiseIf, Proc.returns_modify,
    Proc.returns_pure] at h
  obtain ⟨_, w1, h1, sets, w2, h2, _, w3, h3, ⟨_, L⟩, w4, h4, _, w5, ⟨hr, rfl⟩, _, w6, ⟨hw, rfl⟩,
    _, w7, rfl, _, w8, h8, _, w9, rfl, _, w10, h10, rfl, rfl⟩ := h
  obtain rfl := blocksToCopy_state h2
  obtain rfl := checkHints_spec h3
  obtain ⟨hrun, rfl⟩ := copyBlocks_spec h4
  obtain ⟨hdb, hobj⟩ := metadataBackup_spec h8
  have hun := World.UpToLocks.of_unlockVersion h10
  refine ⟨sets, w1, L, h2, .of_updateVersionLock h1, hrun, rfl, ?_⟩
  refine ⟨?_, ?_, ?_, not_not.mp hr, not_not.mp hw⟩
  · rw [hun.blocks]
    change w8.db.blocks = _
    rw [hdb]
    rfl
  · rw [hun.objects]
    exact hobj
  · rw [hun.versions]
    change (w8.db.setStats version.id L.stats).versions = _
    rw [hdb]
    rfl

theorem backup_spec {v' : Version} {source : Option Source}
    (h : (backup S version source hints base sched).Returns w v' u) :
    ∃ io v sets w1 w2 L, source = some io ∧
      (updateVersion S version
        (some (if version.blockSize ≠ 0 then version.blockSize else S.blockSize))
        (some io.data.length) base true sched.createDue).Returns w v w1 ∧
      (blocksToCopy v io.data.length hints).Returns w2 sets w2 ∧ w1.UpToLocks w2 ∧
      (Loop.run S v io sets.1 sets.2 sched).Returns { world := w2 } () L ∧
      v' = { v with status := .valid, stats := some L.stats } ∧ BackupDone v L u := by
  simp only [backup, Proc.returns_bind, Proc.returns_ofOption, Proc.returns_pure] at h
  obtain ⟨io, _, ⟨hio, rfl⟩, v, w1, hv, stats, w2, hs, rfl, rfl⟩ := h
  obtain ⟨sets, w2, L, hsets, hup, hrun, rfl, hdone⟩ := doCreateBackup_spec hs
  exact ⟨io, v, sets, w1, w2, L, hio, hv, hsets, hup, hrun, rfl, hdone⟩

end Spec

end Benji

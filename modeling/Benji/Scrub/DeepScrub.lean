import Benji.Scrub.Instances
import Benji.Backup.Loop

/-! `Benji.deep_scrub` and `Benji.scrub`: `_scrub_prepare` submits the reads, and the loops over
the completed reads mark blocks and versions. -/
namespace Benji
open Lib

variable {κ : Type}

def VersionStatus.name : VersionStatus → String
  | incomplete => "incomplete"
  | valid => "valid"
  | invalid => "invalid"

namespace Scrub

def seen (history : Option (List (ℕ × BlockUid))) (storage : ℕ) (uid : Option BlockUid) : Bool :=
  match history, uid with
  | some h, some uid => h.any fun entry => entry = (storage, uid)
  | _, _ => false

def addHistory (storage : ℕ) (uid : Option BlockUid) (s : Scrub κ) : Scrub κ :=
  match uid with
  | some uid => { s with history := s.history.map fun h => (storage, uid) :: h }
  | none => s

/-- How much of a version is read: `roll` is `random.randint(1, 100)` at each block. -/
structure Sample where
  blockPercentage : ℕ := 100
  roll : ℕ → ℕ := fun _ => 1

/-- The condition under which `_scrub_prepare` reads a block. -/
def wanted (sample : Sample) (history : Option (List (ℕ × BlockUid))) (storage : ℕ)
    (block : Block κ) : Bool :=
  block.uid.isSome && !seen history storage block.uid &&
    !(block.idx ≠ 0 && sample.blockPercentage < 100 &&
      sample.roll block.idx > sample.blockPercentage)

def submitRead (i : ℕ) (deepScrub : Bool) (block : Block κ) (s : Scrub κ) : Scrub κ :=
  { s.readBlockAsync i block (!deepScrub) with readJobs := s.readJobs + 1 }

/-- The loop of `_scrub_prepare`. -/
def submitReads (i : ℕ) (sample : Sample) (storage : ℕ) (deepScrub : Bool) :
    List (Block κ) → Scrub κ → Scrub κ
  | [], s => s
  | block :: rest, s =>
    if wanted sample s.history storage block then
      submitReads i sample storage deepScrub rest (submitRead i deepScrub block s)
    else submitReads i sample storage deepScrub rest s

def scrubPrepare (S : Settings κ) (version : Version) (sample : Sample) (deepScrub : Bool) :
    ScrubAction κ Unit := do
  let i ← getByName version.storage.id
  Proc.modify fun s => submitReads i sample version.storage.id deepScrub
    (s.world.db.blocks.blocks S.blocksPerCall version) s

/-- `set_block_valid`, which commits. -/
def setBlockValid (uid : Option BlockUid) (valid : Bool) (s : Scrub κ) : Scrub κ :=
  { s with world := (s.world.mapDb fun db => db.setBlockValid uid valid).commit }

/-- A block that was found to be invalid; `report` adds the versions it affects to the list. -/
def markInvalid (uid : Option BlockUid) (report : Bool) (s : Scrub κ) : Scrub κ :=
  { s.setBlockValid uid false with
    valid := false
    affectedVersionUids := if report then
      s.affectedVersionUids ++ (s.world.db.affectedVersions uid).map Version.uid
      else s.affectedVersionUids }

/-- An entry that is an exception. -/
def handleReadError (e : Error) : ScrubAction κ Unit := fun s =>
  match e with
  | .invalidBlock _ _ uid => some (.ok (), s.markInvalid uid true)
  | e => some (.error e, s)

/-- What follows the checks of a block: it may be valid again. -/
def passed (storage : ℕ) (block : Block κ) (s : Scrub κ) : Scrub κ :=
  addHistory storage block.uid (if block.valid then s else s.setBlockValid block.uid true)

/-- The comparison with the source, if there is one. -/
def compareSource (version : Version) (source : Option Source) (block : Block κ) (data : Bytes) :
    ScrubAction κ Unit := fun s =>
  match source with
  | none => some (.ok (), s)
  | some io => match io.read version.blockSize block with
    | .error e => some (.error e, s)
    | .ok sourceData =>
      if sourceData = data then some (.ok (), s) else some (.ok (), { s with valid := false })

/-- The body of the loop of `deep_scrub` for a block that could be read. -/
def checkData [DecidableEq κ] (S : Settings κ) (version : Version) (source : Option Source)
    (block : Block κ) (data : Bytes) (m : Metadata κ) : ScrubAction κ Unit := fun s =>
  match checkBlockMetadata block (some data.length) m with
  | some (.valueError _) => some (.ok (), s.markInvalid block.uid false)
  | some e => some (.error e, s)
  | none =>
    if some (S.dataHexdigest data) = block.checksum then
      Proc.andThen (compareSource version source block data)
        (fun _ => Proc.modify (passed version.storage.id block)) s
    else some (.ok (), s.markInvalid block.uid true)

def deepScrubEntry [DecidableEq κ] (S : Settings κ) (version : Version) (source : Option Source) :
    Block κ × ReadResult κ → ScrubAction κ Unit
  | (_, .error e) => handleReadError e
  | (block, .ok (data, m)) => checkData S version source block (data.getD []) m

/-- The body of the loop of `scrub`. -/
def scrubEntry [DecidableEq κ] (version : Version) :
    Block κ × ReadResult κ → ScrubAction κ Unit
  | (_, .error e) => handleReadError e
  | (block, .ok (_, m)) => fun s =>
    match checkBlockMetadata block none m with
    | some (.valueError _) => some (.ok (), s.markInvalid block.uid true)
    | some e => some (.error e, s)
    | none => some (.ok (), addHistory version.storage.id block.uid s)

/-- `before` are the jobs done while the reads are still being prepared. -/
structure Schedule where
  before : List (ℕ × ℕ)
  rounds : List Round

/-- The version, if its status allows the scrub. -/
def getVersion (versionUid : String) (deep : Bool) : ScrubAction κ Version := do
  let s ← Proc.get
  let version ← Proc.ofOption (s.world.db.getByUid versionUid)
    (.keyError s!"Version {versionUid} not found.")
  Proc.raiseIf (deep = true ∧ ¬ version.status.isDeepScrubbable) (.scrubbingError
    (s!"Version {versionUid} cannot be deep-scrubbed, it has a status of " ++
      s!"{version.status.name}."))
  Proc.raiseIf (deep = false ∧ ¬ version.status.isScrubbable) (.scrubbingError
    (s!"Version {versionUid} cannot be scrubbed, it has a status of {version.status.name}."))
  pure version

def unlock (S : Settings κ) (versionUid : String) : ScrubAction κ Unit :=
  onWorld (Locking.unlockVersion S.me versionUid)

def unlockAndRaise {α : Type} (S : Settings κ) (versionUid : String) (e : Error) :
    ScrubAction κ α := do
  unlock S versionUid
  Proc.raise e

/-- The body of the second `try` of `deep_scrub`; `i` is the instance it reads from. -/
def deepScrubBlocks [DecidableEq κ] (S : Settings κ) (version : Version) (source : Option Source)
    (sample : Sample) (sched : Scrub.Schedule) (i : ℕ) : ScrubAction κ Unit := do
  Proc.modify (useReadCache i false)
  scrubPrepare S version sample true
  Proc.modify (work sched.before)
  forCompleted i (deepScrubEntry S version source) sched.rounds

/-- `version.set(status=VersionStatus.valid)`. -/
def setValid (version : Version) (s : Scrub κ) : Scrub κ :=
  { s with world := (s.world.mapDb fun db => db.setStatus version.id .valid).commit }

/-- What follows the loop of `deep_scrub`. -/
def finish (S : Settings κ) (versionUid : String) (version : Version) (sample : Sample) :
    ScrubAction κ Unit := do
  let s ← Proc.get
  -- The lock is kept when this raises.
  Proc.raiseIf (s.readJobs ≠ s.doneReadJobs) (jobsMessage "read" s.readJobs s.doneReadJobs)
  Proc.modify fun s =>
    if s.valid = true ∧ sample.blockPercentage = 100 then setValid version s else s
  unlock S versionUid
  Proc.raiseIf (s.valid = false) (.scrubbingError s!"Deep-scrub of version {versionUid} failed.")

end Scrub

open Scrub in
def deepScrub [DecidableEq κ] (S : Settings κ) (versionUid : String) (source : Option Source)
    (sample : Sample) (sched : Scrub.Schedule) : ScrubAction κ Unit := do
  onWorld (Locking.lockVersion S.me versionUid "Deep-scrubbing")
  let version ← Proc.tryExcept (getVersion versionUid true) (unlockAndRaise S versionUid)
  let i ← getByName version.storage.id
  let s ← Proc.get
  Proc.tryFinally
    (Proc.tryExcept (deepScrubBlocks S version source sample sched i)
      (unlockAndRaise S versionUid))
    (Proc.modify (useReadCache i (s.usesReadCache i)))
  finish S versionUid version sample

open Scrub in
def scrub [DecidableEq κ] (S : Settings κ) (versionUid : String) (sample : Sample)
    (sched : Scrub.Schedule) : ScrubAction κ Unit := do
  onWorld (Locking.lockVersion S.me versionUid "Scrubbing version")
  let version ← Proc.tryExcept (getVersion versionUid false) (unlockAndRaise S versionUid)
  Proc.tryFinally
    (do
      let i ← getByName version.storage.id
      scrubPrepare S version sample false
      Proc.modify (work sched.before)
      forCompleted i (scrubEntry version) sched.rounds)
    (unlock S versionUid)
  let s ← Proc.get
  Proc.raiseIf (s.readJobs ≠ s.doneReadJobs) (jobsMessage "read" s.readJobs s.doneReadJobs)
  Proc.raiseIf (s.valid = false ∧ versionUid ∉ s.affectedVersionUids)
    (.valueError "list.remove(x): x not in list")
  Proc.raiseIf (s.valid = false) (.scrubbingError s!"Scrub of version {versionUid} failed.")

end Benji

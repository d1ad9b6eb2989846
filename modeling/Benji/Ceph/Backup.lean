import Benji.Hints
import Benji.Lib.ByteFile
import Benji.Lib.Proc
import Benji.Lib.Steps

/-! The chain of differential backups of an RBD image: each run snapshots the image, takes the
hints from the difference to the snapshot before, and bases the new version on the version of that
snapshot. Every step is a process of its own that may fail or run into its timeout. -/
namespace Benji.Ceph
open Lib

inductive Status where
  | incomplete
  | valid
  | invalid
  deriving DecidableEq

structure Version where
  uid : String
  volume : String
  snapshot : String
  status : Status
  content : Bytes
  deriving DecidableEq

structure Snapshot where
  name : String
  content : Bytes
  deriving DecidableEq

/-- The image with its snapshots, sorted by their ids, and the versions that Benji knows. -/
structure Cluster where
  image : Bytes
  snapshots : List Snapshot
  versions : List Version
  /-- All snapshots that these backups ever took. -/
  taken : List Snapshot

/-- What becomes of one process: what was written to the image and which versions were removed or
became invalid before it runs, whether it takes effect, and whether it is seen to fail. -/
structure Outcome where
  image : Bytes
  removed : List String := []
  invalidated : List String := []
  effect : Bool := true
  raises : Bool := false
  /-- The report of `rbd diff`. -/
  diff : List Hint := []
  /-- Which of the versions found is listed first. -/
  pick : ℕ := 0
  /-- The uid of a version created by the process, which a failure may leave incomplete. -/
  uid : String := ""
  leavesVersion : Bool := false
  /-- What a version gets that is not read from hints that tell the truth. -/
  content : Bytes := []

/-- A run of the script, with what its processes are going to meet. -/
structure State where
  cluster : Cluster
  outcomes : List Outcome

inductive Failure where
  /-- `subprocess_run` raises. -/
  | runtimeError
  /-- The script itself comes to its end here. -/
  | killed

abbrev Action (α : Type) := Proc Failure State α

namespace Cluster

def find? (c : Cluster) (name : String) : Option Bytes :=
  (c.snapshots.find? fun s => s.name = name).map Snapshot.content

/-- Others write to the image, remove versions and scrub them. -/
def advance (c : Cluster) (o : Outcome) : Cluster :=
  { c with
    image := o.image
    versions := (c.versions.filter fun v => v.uid ∉ o.removed).map fun v =>
      if v.uid ∈ o.invalidated then { v with status := .invalid } else v }

end Cluster

/-- Run a process that computes its output and the cluster after it, or fails by itself. -/
def subprocessRun {α : Type} (act : Outcome → Cluster → Option (α × Cluster)) : Action α := fun s =>
  match s.outcomes with
  | [] => some (.error .killed, s)
  | o :: rest =>
    let c := s.cluster.advance o
    match act o c with
    | none => some (.error .runtimeError, ⟨c, rest⟩)
    | some (a, c') =>
      let s' : State := ⟨if o.effect then c' else c, rest⟩
      if o.effect && !o.raises then some (.ok a, s') else some (.error .runtimeError, s')

def snapNamePrefix : String := "b-"

/-- The name that the clock gives to a new snapshot. -/
def snapshotName (now : String) : String := snapNamePrefix ++ now

def IsBenjis (name : String) : Prop := snapNamePrefix.toList <+: name.toList

instance : DecidablePred IsBenjis := fun name =>
  inferInstanceAs (Decidable (snapNamePrefix.toList <+: name.toList))

theorem isBenjis_snapshotName (now : String) : IsBenjis (snapshotName now) := by
  rw [IsBenjis, snapshotName, String.toList_append]
  exact List.prefix_append _ _

/-- `rbd snap ls`, reduced to the snapshots made by Benji. -/
def snapLs : Action (List String) := subprocessRun fun _ c =>
  some ((c.snapshots.map Snapshot.name).filter fun name => IsBenjis name, c)

/-- `rbd snap create`. -/
def snapCreate (name : String) : Action Unit := subprocessRun fun _ c =>
  match c.find? name with
  | some _ => none
  | none => some ((), { c with
      snapshots := c.snapshots ++ [⟨name, c.image⟩]
      taken := c.taken ++ [⟨name, c.image⟩] })

/-- `rbd snap rm`. -/
def snapRm (name : String) : Action Unit := subprocessRun fun _ c =>
  match c.find? name with
  | none => none
  | some _ => some ((), { c with snapshots := c.snapshots.filter fun s => s.name ≠ name })

/-- The hints tell how the contents differ, as long as they concern the new one. -/
def CorrectDiff (old new : Bytes) (hints : List Hint) : Prop :=
  (∀ h ∈ hints, h.offset + h.length ≤ new.length) ∧
    (∀ i < new.length, (∀ h ∈ hints, ¬ h.Covers i) → new.getD i 0 = old.getD i 0) ∧
    ∀ i < new.length, (∃ h ∈ hints, h.Covers i) →
      (∀ h ∈ hints, h.existing = true → ¬ h.Covers i) → new.getD i 0 = 0

instance (old new : Bytes) (hints : List Hint) : Decidable (CorrectDiff old new hints) :=
  inferInstanceAs (Decidable (_ ∧ _ ∧ _))

/-- The partial last block of the old content becomes a full one that no hint reaches. -/
def OutgrowsBlock (blockSize : ℕ) (old new : Bytes) (hints : List Hint) : Prop :=
  old.length % blockSize ≠ 0 ∧ old.length ⌈/⌉ blockSize * blockSize ≤ new.length ∧
    ∀ h ∈ hints, old.length ⌈/⌉ blockSize - 1 ∉ h.blockRange blockSize

instance (blockSize : ℕ) (old new : Bytes) (hints : List Hint) :
    Decidable (OutgrowsBlock blockSize old new hints) := inferInstanceAs (Decidable (_ ∧ _ ∧ _))

/-- What `rbd diff` compares with: nothing, or a snapshot that has to be there. -/
def Cluster.fromContent (c : Cluster) : Option String → Option Bytes
  | none => some []
  | some fromSnap => c.find? fromSnap

/-- `rbd diff`, from the beginning of the image or from a snapshot. -/
def rbdDiff (fromSnap : Option String) (name : String) : Action (List Hint) :=
  subprocessRun fun o c =>
    match c.fromContent fromSnap, c.find? name with
    | some old, some new => if CorrectDiff old new o.diff then some (o.diff, c) else none
    | _, _ => none

/-- `benji ls` with the volume, the snapshot and the status as its filter. -/
def benjiLs (volume snapshot : String) : Action (List String) := subprocessRun fun o c =>
  let found := (c.versions.filter fun v =>
    v.volume = volume ∧ v.snapshot = snapshot ∧ v.status = .valid).map Version.uid
  some (found.rotate o.pick, c)

/-- The content of a version made from hints; nothing is known of it if the hints do not fit. -/
def versionContent (blockSize : ℕ) (hints : List Hint) (base source other : Bytes) : Bytes :=
  if CorrectDiff base source hints ∧ ¬ OutgrowsBlock blockSize base source hints then source
  else other

/-- The content to start from; a base version has to be there, and valid. -/
def baseContent (c : Cluster) : Option String → Option Bytes
  | none => some []
  | some uid => (c.versions.find? fun v => v.uid = uid ∧ v.status = .valid).map Version.content

/-- The process that creates the version fails before or after it is complete. -/
def addIncomplete (volume snapshot : String) (o : Outcome) (c : Cluster) : Cluster :=
  if o.leavesVersion = true ∧ o.uid ∉ c.versions.map Version.uid then
    { c with versions := c.versions ++ [⟨o.uid, volume, snapshot, .incomplete, []⟩] }
  else c

/-- `benji backup` of a snapshot. -/
def benjiBackup (blockSize : ℕ) (volume snapshot : String) (hints : List Hint)
    (baseVersionUid : Option String) : Action Unit := fun s =>
  match s.outcomes with
  | [] => some (.error .killed, s)
  | o :: rest =>
    let c := s.cluster.advance o
    let failed : State := ⟨addIncomplete volume snapshot o c, rest⟩
    if o.effect = false then some (.error .runtimeError, failed)
    else match baseContent c baseVersionUid, c.find? snapshot with
      | some base, some source =>
        if o.uid ∈ c.versions.map Version.uid then some (.error .runtimeError, ⟨c, rest⟩)
        else
          let s' : State := ⟨{ c with versions := c.versions ++
            [⟨o.uid, volume, snapshot, .valid,
              versionContent blockSize hints base source o.content⟩] }, rest⟩
          if o.raises then some (.error .runtimeError, s') else some (.ok (), s')
      | _, _ => some (.error .runtimeError, failed)

/-- A failure to create the snapshot is signalled, and not raised. -/
def snapshotCreate (snapshot : String) : Action Unit :=
  Proc.tryExcept (snapCreate snapshot) fun e =>
    match e with
    | .runtimeError => pure ()
    | .killed => Proc.raise .killed

def backupInitial (blockSize : ℕ) (volume snapshot : String) : Action Unit := do
  snapshotCreate snapshot
  let hints ← rbdDiff none snapshot
  benjiBackup blockSize volume snapshot hints none

def backupDifferential (blockSize : ℕ) (volume snapshot lastSnapshot lastVersionUid : String) :
    Action Unit := do
  snapshotCreate snapshot
  let hints ← rbdDiff (some lastSnapshot) snapshot
  snapRm lastSnapshot
  benjiBackup blockSize volume snapshot hints (some lastVersionUid)

/-- The backup that follows from what `benji ls` finds for the newest snapshot. -/
def backupFrom (blockSize : ℕ) (volume snapshot lastSnapshot : String) :
    List String → Action Unit
  | lastVersionUid :: _ =>
    backupDifferential blockSize volume snapshot lastSnapshot lastVersionUid
  | [] => do
    snapRm lastSnapshot
    backupInitial blockSize volume snapshot

/-- `ceph.backup`; the time is read once, and names the snapshot. -/
def backup (blockSize : ℕ) (volume snapshot : String) : Action Unit := do
  let benjisSnapshots ← snapLs
  match benjisSnapshots.getLast? with
  | none => backupInitial blockSize volume snapshot
  | some lastSnapshot => do
    -- Delete all snapshots except the newest.
    Proc.forEach snapRm benjisSnapshots.dropLast
    let found ← benjiLs volume lastSnapshot
    backupFrom blockSize volume snapshot lastSnapshot found

/-- What a run leaves, also if it raises: the exception is signalled only. -/
def afterBackup (blockSize : ℕ) (volume snapshot : String) (outcomes : List Outcome)
    (c : Cluster) : Cluster :=
  match backup blockSize volume snapshot ⟨c, outcomes⟩ with
  | none => c
  | some (_, s) => s.cluster

inductive Event where
  /-- A run of the script. -/
  | backup (now : String) (outcomes : List Outcome)
  /-- The time between two runs. -/
  | others (o : Outcome)

def step (blockSize : ℕ) (volume : String) (c : Cluster) : Event → Option Cluster
  | .backup now outcomes => some (afterBackup blockSize volume (snapshotName now) outcomes c)
  | .others o => some (c.advance o)

end Benji.Ceph

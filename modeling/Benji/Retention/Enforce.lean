import Benji.Database.Export
import Benji.Lib.Safe
import Benji.Retention.Partition
import Benji.UpdateVersion

/-! `rm` and `enforce_retention_policy`, with what other processes do to the database before each
removal. -/
namespace Benji
open Lib

namespace Retention
variable {κ : Type}

/-- What retention looks at of a version beside its row. -/
structure Info where
  volume : String
  isProtected : Bool
  createdAt : ℤ
  labels : List (String × String)

structure Tables (κ : Type) where
  world : World κ
  /-- By version id. -/
  info : ℕ → Info

structure Catalog (κ : Type) extends Tables κ where
  /-- The versions whose turn to be removed has come, each with the tables at that moment. -/
  turns : List (Version × Tables κ)
  /-- The rows removed. -/
  removed : List Version

abbrev Enforcement (κ α : Type) := Proc Error (Catalog κ) α

def onWorld {α : Type} (p : Action κ α) : Enforcement κ α :=
  Proc.onPart (fun c => c.world) (fun c w => { c with world := w }) p

/-- What a run does not decide itself. -/
structure Env (κ : Type) where
  me : Process
  /-- What other processes do before the removal with this number. -/
  others : ℕ → Tables κ → Tables κ
  /-- `StorageFactory.get_by_name` and the storage's `rm_version`. -/
  rmVersion : Version → Except Error Unit
  /-- The clock, when the rows of `deleted_blocks` are made. -/
  date : ℕ → ℕ
  ageDays : Info → ℤ
  keepMetadataBackup : Bool

def removeRow (E : Env κ) (version : Version) (c : Catalog κ) : Catalog κ := { c with
  world := (c.world.mapDb fun db => db.removeVersion version E.date).commit
  removed := c.removed ++ [version] }

def removeBackup (E : Env κ) (version : Version) : Enforcement κ Unit :=
  if E.keepMetadataBackup then pure ()
  else match E.rmVersion version with
    | .ok () => pure ()
    | .error .fileNotFoundError => pure ()
    | .error e => Proc.raise e

def rmLocked (E : Env κ) (versionUid : String) (force : Bool)
    (disallowRmWhenYoungerThanDays : ℤ) : Enforcement κ Unit := do
  let c ← Proc.get
  let version ← Proc.ofOption (c.world.db.getByUid versionUid)
    (.keyError s!"Version {versionUid} not found.")
  Proc.raiseIf ((c.info version.id).isProtected = true)
    (.permissionError s!"Version {versionUid} is protected, will not delete it.")
  Proc.raiseIf (force = false ∧ E.ageDays (c.info version.id) < disallowRmWhenYoungerThanDays)
    (.permissionError s!"Version {versionUid} is too young. Will not delete.")
  Proc.raiseIf (force = false ∧ version.status.isRemovable = false)
    (.permissionError (s!"Version {versionUid} cannot be removed without force, " ++
      s!"it has status {Export.statusName version.status}."))
  Proc.modify (removeRow E version)
  removeBackup E version

def rm (E : Env κ) (versionUid : String) (force : Bool) (disallowRmWhenYoungerThanDays : ℤ) :
    Enforcement κ Unit := do
  onWorld (Locking.lockVersion E.me versionUid "Removing version")
  Proc.tryFinally (rmLocked E versionUid force disallowRmWhenYoungerThanDays)
    (onWorld (Locking.unlockVersion E.me versionUid))

/-- The attributes of the mapped classes that retention uses. -/
structure Attributes (κ : Type) where
  /-- `version.date`. -/
  date : Version → Info → Except Error ℤ
  /-- `Version.find(labels=[label])`. -/
  findByLabel : Tables κ → String × String → Except Error (List Version)

/-- Neither attribute is declared: the column of `versions` is `created_at`, and `Version.find`
asks for `Label.version_uid` where the column is `version_id`. -/
def declared : Attributes κ where
  date _ _ := .error (.attributeError "'Version' object has no attribute 'date'")
  findByLabel _ _ :=
    .error (.attributeError "type object 'Label' has no attribute 'version_uid'")

/-- `ORDER BY volume, created_at`. -/
def orderBy (info : ℕ → Info) (versions : List Version) : List Version :=
  versions.insertionSort fun v w => (info v.id).volume < (info w.id).volume ∨
    (info v.id).volume = (info w.id).volume ∧ (info v.id).createdAt ≤ (info w.id).createdAt

/-- The versions that the filter expression selects and that may be considered. -/
def considered (selects : Version → Info → Bool) (t : Tables κ) : List Version :=
  (orderBy t.info (t.world.db.versions.rows.filter fun v => selects v (t.info v.id))).filter
    fun v => !(t.info v.id).isProtected && v.status.isRemovable

def versionsByVolume (info : ℕ → Info) (versions : List Version) :
    List (String × List Version) :=
  versions.foldl (fun d v => appendAt (info v.id).volume v d) []

/-- `RetentionFilter.filter`: the sort asks each version for its date first. -/
def filterVersions (A : Attributes κ) (F : RetentionFilter) (info : ℕ → Info)
    (versions : List Version) : Except Error (List Version) := do
  let _ ← versions.mapM fun v => A.date v (info v.id)
  return F.filter (fun v => ((A.date v (info v.id)).toOption).getD 0) versions

def dismissedVersions (A : Attributes κ) (F : RetentionFilter) (info : ℕ → Info)
    (groups : List (String × List Version)) : Except Error (List Version) :=
  groups.foldlM (fun dismissed group => do
    return dismissed ∪ (← filterVersions A F info group.2)) []

/-- The versions with the value that the group label has for this one. -/
def sameGroup (A : Attributes κ) (t : Tables κ) (groupLabel : String) (v : Version) :
    Except Error (List Version) :=
  match (t.info v.id).labels.find? fun label => label.1 = groupLabel with
  | some label => A.findByLabel t label
  | none => return []

def withGroups (A : Attributes κ) (t : Tables κ) (groupLabel : Option String)
    (dismissed : List Version) : Except Error (List Version) :=
  match groupLabel with
  | some groupLabel => do
    let additional ← dismissed.foldlM (fun additional v => do
      return additional ∪ (← sameGroup A t groupLabel v)) []
    return dismissed ∪ additional
  | none => return dismissed

def toRemove (A : Attributes κ) (F : RetentionFilter) (selects : Version → Info → Bool)
    (groupLabel : Option String) (t : Tables κ) : Except Error (List Version) := do
  let groups := versionsByVolume t.info (considered selects t)
  withGroups A t groupLabel (← dismissedVersions A F t.info groups)

/-- The exceptions of `rm` that the loop handles. -/
def handled : Error → Bool
  | .keyError _ => true
  | .permissionError _ => true
  | .alreadyLocked _ => true
  | _ => false

def takeTurn (E : Env κ) (v : Version) (c : Catalog κ) : Catalog κ :=
  let t := E.others c.turns.length c.toTables
  { t with turns := c.turns ++ [(v, t)], removed := c.removed }

/-- One round of the loop: whether the version stays in the set that is returned. -/
def removeOne (E : Env κ) (v : Version) : Enforcement κ Bool := do
  Proc.modify (takeTurn E v)
  Proc.tryExcept (do
    rm E v.uid true 0
    return true) fun e => if handled e then return false else Proc.raise e

def removeAll (E : Env κ) : List Version → Enforcement κ (List Version)
  | [] => return []
  | v :: versions => do
    let gone ← removeOne E v
    let rest ← removeAll E versions
    return if gone then v :: rest else rest

/-- The rules are parsed already; a set is iterated in the order it was filled in. -/
def enforceRetentionPolicy (A : Attributes κ) (E : Env κ) (F : RetentionFilter)
    (selects : Version → Info → Bool) (dryRun : Bool) (groupLabel : Option String) :
    Enforcement κ (List Version) := do
  let c ← Proc.get
  match toRemove A F selects groupLabel c.toTables with
  | .error e => Proc.raise e
  | .ok versions =>
    if dryRun then return []
    else do
      let removed ← removeAll E versions
      return removed.insertionSort fun v w => v.uid ≤ w.uid

end Retention

end Benji

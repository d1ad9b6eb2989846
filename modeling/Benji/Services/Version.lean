import Mathlib.Algebra.Group.Nat.Defs
import Benji.Services.Listing
import Benji.Services.ScheduleJob

/-! The handlers of versions, and the backup of volume groups. -/
namespace Benji.Services
open Lib

/-- The labels to set and the names of those to remove. -/
structure LabelChanges where
  add : List (String × String)
  remove : List String
deriving DecidableEq

namespace Version

def setLabel (v : Version) (label : String × String) : Version :=
  { v with labels := mergeRow Prod.fst label v.labels }

def rmLabel (v : Version) (name : String) : Version :=
  { v with labels := v.labels.filter fun l => l.1 ≠ name }

/-- The changes of a patch: protection, then labels. -/
def patched (v : Version) (isProtected : Option Bool) (labels : Option LabelChanges) : Version :=
  let v := { v with isProtected := isProtected.getD v.isProtected }
  match labels with
  | none => v
  | some changes => changes.remove.foldl rmLabel (changes.add.foldl setLabel v)

theorem setLabels_columns (v : Version) (labels : List (String × String)) :
    (labels.foldl setLabel v).id = v.id ∧ (labels.foldl setLabel v).vmId = v.vmId ∧
      (labels.foldl setLabel v).volume = v.volume := by
  induction labels generalizing v with
  | nil => exact ⟨rfl, rfl, rfl⟩
  | cons l labels ih => exact ih (v.setLabel l)

theorem rmLabels_columns (v : Version) (names : List String) :
    (names.foldl rmLabel v).id = v.id ∧ (names.foldl rmLabel v).vmId = v.vmId ∧
      (names.foldl rmLabel v).volume = v.volume := by
  induction names generalizing v with
  | nil => exact ⟨rfl, rfl, rfl⟩
  | cons n names ih => exact ih (v.rmLabel n)

/-- A patch leaves the id, the VM and the volume alone. -/
theorem patched_columns (v : Version) (isProtected : Option Bool) (labels : Option LabelChanges) :
    (v.patched isProtected labels).id = v.id ∧ (v.patched isProtected labels).vmId = v.vmId ∧
      (v.patched isProtected labels).volume = v.volume := by
  cases labels with
  | none => exact ⟨rfl, rfl, rfl⟩
  | some changes =>
    let w := { v with isProtected := isProtected.getD v.isProtected }
    obtain ⟨hi, hv, ho⟩ := setLabels_columns w changes.add
    obtain ⟨hi', hv', ho'⟩ := rmLabels_columns (changes.add.foldl setLabel w) changes.remove
    exact ⟨hi'.trans hi, hv'.trans hv, ho'.trans ho⟩

end Version

namespace Db

def putVersion (d : Db) (version : Version) : Db :=
  { d with versions := mergeRow Version.id version d.versions }

end Db

namespace VersionController

def getVersion (id : ℕ) : Action Response := do
  let version ← query fun d => d.getVersion id
  let version ← Proc.ofOption version (.refused 404 s!"Version {id} not found.")
  pure (.version version)

/-- `list_versions` of a volume. The page is one of users, and `answers` are the rows of users that
the database returns for it. -/
def listVersions (ctx : Context) (userName : Option String) (answers : ℕ → List User)
    (page pageSize : Option ℤ) (volumeId : String) : Action Response := do
  let (users, _) ← query fun d =>
    (usersQuery ctx userName d).dumpRawObject answers page pageSize
  if users = [] then pure .nothing else do
    let versions ← query fun d => d.versions.filter fun v => v.volume = volumeId
    pure (.versions versions)

/-- The node of a version's storage. -/
def nodeOf (version : Version) : Action Node := do
  let storage ← query fun d => d.getStorage version.storageId
  let storage ← Proc.ofOption storage .attributeError
  let node ← query fun d => d.getNode storage.nodeId
  Proc.ofOption node .attributeError

/-- Whether the volume, where the cloud knows it, has another size than the version. -/
def otherSize (ops : Ops) (version : Version) : Bool :=
  (ops.getVolumeById version.volume).any fun volume => volume.size * 1024 ^ 3 ≠ version.size

def restoreVersion (ctx : Context) (id : ℕ) (ops : Option Ops) (sparse force wait : Bool) :
    Action Response := do
  let version ← query fun d => d.getVersion id
  let version ← Proc.ofOption version (.refused 400 s!"Version id {id} is invalid.")
  Proc.raiseIf (version.status = .incomplete) (.refused 400 s!"Version id {id} is invalid.")
  let vm ← query fun d => d.getVm version.vmId
  let vm ← Proc.ofOption vm .attributeError
  Proc.raiseIf (ctx.isAdmin = false ∧ vm.userId ≠ ctx.user.id)
    (.refused 403 "User action not allowed")
  let node ← nodeOf version
  Proc.raiseIf (node.deleted = true) (.refused 400 s!"Node name {node.name} is not active.")
  match ops with
  | none => pure .nothing
  | some ops => do
    Proc.raiseIf (otherSize ops version = true)
      (.refused 400 "Allocated size must be equal to Volume size")
    -- `data.id` of a dictionary
    Proc.raiseIf (wait = true) .attributeError
    pure (.started (.restore node.host node.port id version.volume sparse force))

/-- Labels that do not parse end the handler before it looks for the version. -/
def patchVersion (id : ℕ) (isProtected : Option Bool) (labels : Option LabelChanges) :
    Action Response := do
  let version ← query fun d => d.getVersion id
  let version ← Proc.ofOption version (.refused 404 s!"Version {id} not found.")
  let version := version.patched isProtected labels
  let _ ← save (fun _ => true) fun d => d.putVersion version
  pure (.version version)

/-- With `wait`, an exception follows the task that is started. -/
def deleteVersion (id : ℕ) (force keepMetadataBackup overrideLock : Bool) : Action Response := do
  let version ← query fun d => d.getVersion id
  let version ← Proc.ofOption version (.refused 500 s!"Version name {id} is invalid.")
  let node ← nodeOf version
  Proc.raiseIf (node.deleted = true) (.refused 500 s!"Node name {node.name} is not active.")
  pure (.started (.delete node.host node.port id force keepMetadataBackup overrideLock))

end VersionController

namespace VMController

/-- The version row of a volume of a group lacks the VM, a column that is not nullable: it is never
stored, and the volume is passed over. -/
def createBackup (storage : Option Storage) (_row : VolumeBackupGroup) : Action Unit := do
  let _ ← Proc.ofOption storage .attributeError
  let _ ← save (fun _ => false) id

def createGroupBackup (storage : Option Storage) (groupId : ℕ) : Action Unit := do
  let rows ← query fun d => d.groupRows groupId
  Proc.forEach (createBackup storage) rows

/-- Without a storage an error is set and the handler goes on. -/
def createVolumeBackupGroups (ctx : Context) (groups : List ℕ) : Action Response := do
  let storage ← ScheduleJobModel.getStorage ctx.user.userName
  Proc.forEach (createGroupBackup storage) groups
  Proc.raiseIf (storage = none) (.refused 400 "Not found storage")
  pure (.versions [])

end VMController

end Benji.Services

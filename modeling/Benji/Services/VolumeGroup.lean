import Benji.Services.Database

/-! The handlers of volume groups, and the listing of VMs that looks at them. -/
namespace Benji.Services
open Lib

/-- A volume of a request, a dictionary in which three keys are looked up. -/
structure VolumeArg where
  id : Option String
  vmId : Option ℕ
  name : Option String
deriving DecidableEq

/-- A volume of the cloud: the servers that it is attached to, and its size in GiB. -/
structure CloudVolume where
  attachments : List String
  size : ℕ
deriving DecidableEq

/-- What the cloud answers. -/
structure Ops where
  /-- `none` for a volume that it does not know. -/
  getVolumeById : String → Option CloudVolume
  /-- The volumes of a server; `none` for an error. -/
  listVolumes : Option String → Option (List String)

structure CreateVolumeGroup where
  name : String
  description : Option String
  volumes : List VolumeArg
  userId : Option ℕ
deriving DecidableEq

structure UpdateVolumeGroup where
  name : Option String
  description : Option String
  volumes : List VolumeArg
deriving DecidableEq

namespace Db

def putVolumeGroup (d : Db) (group : VolumeGroup) : Db :=
  { d with volumeGroups := mergeRow VolumeGroup.id group d.volumeGroups }

/-- The constraints of a row: its foreign keys, and no other row of its volume. -/
def acceptsVolumeBackupGroup (row : VolumeBackupGroup) (d : Db) : Bool :=
  (d.volumeGroups.any fun g => g.id = row.groupId) && (d.vms.any fun v => v.id = row.vmId) &&
    d.volumeBackupGroups.all fun r => r.volumeId = row.volumeId → r.groupId = row.groupId

def putVolumeBackupGroup (d : Db) (row : VolumeBackupGroup) : Db :=
  { d with
    volumeBackupGroups := mergeRow (fun r => (r.groupId, r.volumeId)) row d.volumeBackupGroups }

def deleteGroupRows (groupId : ℕ) (d : Db) : Db :=
  { d with volumeBackupGroups := d.volumeBackupGroups.filter fun r => r.groupId ≠ groupId }

def deleteJobsOfGroup (groupId : ℕ) (d : Db) : Db :=
  { d with scheduleJobs := d.scheduleJobs.filter fun j => j.groupId ≠ groupId }

def deleteJobRows (sjId : ℕ) (d : Db) : Db :=
  { d with volumeScheduleJobs := d.volumeScheduleJobs.filter fun r => r.sjId ≠ sjId }

def deleteGroup (groupId : ℕ) (d : Db) : Db :=
  { d with volumeGroups := d.volumeGroups.filter fun g => g.id ≠ groupId }

/-- No row refers to the group. -/
def groupUnused (groupId : ℕ) (d : Db) : Bool :=
  (d.volumeBackupGroups.all fun r => r.groupId ≠ groupId) &&
    d.scheduleJobs.all fun j => j.groupId ≠ groupId

/-- No row refers to a job of the group. -/
def jobsUnused (groupId : ℕ) (d : Db) : Bool :=
  d.scheduleJobs.all fun j => j.groupId = groupId → d.volumeScheduleJobs.all fun r => r.sjId ≠ j.id

def jobsOfGroup (groupId : ℕ) (d : Db) : List ScheduleJob :=
  d.scheduleJobs.filter fun j => j.groupId = groupId

end Db

namespace VolumeGroupModel

/-- The row that is merged for a volume. Where the name is not `named`, the merge leaves the one
that a row with the same primary key has. -/
def rowOf (named : Bool) (groupId : ℕ) (id : String) (vmId : ℕ) (name : Option String) (d : Db) :
    VolumeBackupGroup :=
  let old := d.volumeBackupGroups.find? fun r => r.groupId = groupId ∧ r.volumeId = id
  ⟨groupId, id, if named then name else old.bind VolumeBackupGroup.volumeName, vmId⟩

/-- `VolumeBackupGroup(..).create()`; nobody looks at the error. -/
def createRow (named : Bool) (groupId : ℕ) (volume : VolumeArg) : Action Unit := do
  let id ← Proc.ofOption volume.id (.keyError "id")
  let vmId ← Proc.ofOption volume.vmId (.keyError "vm_id")
  let _ ← save (fun d => d.acceptsVolumeBackupGroup (rowOf named groupId id vmId volume.name d))
    fun d => d.putVolumeBackupGroup (rowOf named groupId id vmId volume.name d)

/-- `to_dict` of a group. -/
def toDict (group : VolumeGroup) : Action Response := do
  let rows ← query fun d => d.groupRows group.id
  pure (.group group rows)

def create (newId : ℕ) (userId : Option ℕ) (req : CreateVolumeGroup) : Action Response := do
  let userId ← Proc.ofOption userId .typeError
  let group : VolumeGroup := ⟨newId, req.name, req.description, userId⟩
  let saved ← save (fun d => d.users.any fun u => u.id = userId) fun d => d.putVolumeGroup group
  Proc.raiseIf (saved = false) (.refused 400 "Failed to create backup group")
  Proc.forEach (createRow true newId) req.volumes
  toDict group

/-- The new value of a column that a request leaves alone with an empty value. -/
def given (new : Option String) (old : String) : String :=
  match new with
  | some s => if s = "" then old else s
  | none => old

/-- The rows of the request in the place of those the group has, where the request lists any. The
old ones are not gone before a new one is committed. -/
def replaceRows (id : ℕ) (volumes : List VolumeArg) : Action Unit :=
  if volumes = [] then pure ()
  else execute (Db.deleteGroupRows id) >>= fun _ => Proc.forEach (createRow false id) volumes

/-- The group with the columns that the request gives. -/
def updated (group : VolumeGroup) (req : UpdateVolumeGroup) : VolumeGroup :=
  let description := if req.description = some "" then none else req.description
  { group with
    name := given req.name group.name
    description := description.or group.description }

def update (id : ℕ) (req : UpdateVolumeGroup) : Action Response := do
  let group ← query fun d => d.getVolumeGroup id
  let group ← Proc.ofOption group (.refused 400 "Failed to update backup group")
  let _ ← save (fun _ => true) fun d => d.putVolumeGroup (updated group req)
  replaceRows id req.volumes
  toDict (updated group req)

def deleteRowsOf : Option ScheduleJob → Action Unit
  | some job => execute (Db.deleteJobRows job.id)
  | none => pure ()

def delete (id : ℕ) : Action Response := do
  let group ← query fun d => d.getVolumeGroup id
  let _ ← Proc.ofOption group (.refused 400 "Not found item")
  let job ← lookup .scheduleJob (Db.jobsOfGroup id)
  deleteRowsOf job
  let unused ← query (Db.jobsUnused id)
  Proc.raiseIf (unused = false) .integrityError
  execute (Db.deleteJobsOfGroup id)
  execute (Db.deleteGroupRows id)
  let deleted ← save (Db.groupUnused id) (Db.deleteGroup id)
  Proc.raiseIf (deleted = false) (.refused 400 "Failed to commit object in database")
  pure .nothing

end VolumeGroupModel

namespace VMController

/-- Whether one of the servers is a VM of the user. The first one found ends the search. -/
def validVolume (userId : Option ℕ) : List String → Action Bool
  | [] => pure false
  | server :: servers => do
    let userId' ← Proc.ofOption userId (.keyError "user_id")
    let vm ← lookup .vm fun d => d.vms.filter fun v => v.emsRef = some server ∧ v.userId = userId'
    if vm.isSome then pure true else validVolume userId servers

def checkVolume (ops : Ops) (userId : Option ℕ) (volume : VolumeArg) : Action Unit := do
  let id ← Proc.ofOption volume.id (.keyError "id")
  let volumeGroup ← lookup .volumeBackupGroup fun d =>
    d.volumeBackupGroups.filter fun r => r.volumeId = id
  Proc.raiseIf (volumeGroup.isSome = true)
    (.refused 400 s!"{id} already exist in volumebackupgroup")
  let volumeOps ← Proc.ofOption (ops.getVolumeById id)
    (.refused 400 s!"volume id {id} is invalid")
  let valid ← validVolume userId volumeOps.attachments
  Proc.raiseIf (valid = false) (.refused 400 s!"volume id {id} is invalid")

def createVolumeGroup (ctx : Context) (newId : ℕ) (ops : Option Ops) (req : CreateVolumeGroup) :
    Action Response :=
  let userId := if ctx.isAdmin then req.userId else some ctx.user.id
  match ops with
  | none => pure .nothing
  | some ops => do
    Proc.forEach (checkVolume ops userId) req.volumes
    VolumeGroupModel.create newId userId req

/-- The group that a handler goes on with: of the caller, except for an administrator. -/
def visible (ctx : Context) (group : Option VolumeGroup) : Bool :=
  ctx.isAdmin || group.any fun g => g.userId = ctx.user.id

def getVolumeGroup (ctx : Context) (id : ℕ) : Action Response := do
  let group ← query fun d => d.getVolumeGroup id
  Proc.raiseIf (visible ctx group = false) (.refused 404 "Not found item")
  let group ← Proc.ofOption group .attributeError
  VolumeGroupModel.toDict group

def updateVolumeGroup (ctx : Context) (id : ℕ) (req : UpdateVolumeGroup) : Action Response := do
  let group ← query fun d => d.getVolumeGroup id
  Proc.raiseIf (visible ctx group = false) (.refused 404 "Not found item")
  let group ← Proc.ofOption group .attributeError
  VolumeGroupModel.update group.id req

def deleteVolumeGroup (ctx : Context) (id : ℕ) : Action Response := do
  let group ← query fun d => d.getVolumeGroup id
  let group ← Proc.ofOption group (.refused 404 "Not found item")
  Proc.raiseIf (ctx.isAdmin = false ∧ group.userId ≠ ctx.user.id)
    (.refused 403 "User action not allowed")
  VolumeGroupModel.delete id

/-- Which of the groups on a page have a job. -/
def inJob : List VolumeGroup → Action (List (VolumeGroup × Bool))
  | [] => pure []
  | group :: groups => do
    let job ← lookup .scheduleJob (Db.jobsOfGroup group.id)
    let rest ← inJob groups
    pure ((group, job.isSome) :: rest)

/-- Which of the volumes of a VM are in a group. -/
def inGroup (vm : VM) : List String → Action (List (String × Bool))
  | [] => pure []
  | id :: ids => do
    let row ← lookup .volumeBackupGroup fun d =>
      d.volumeBackupGroups.filter fun r => r.vmId = vm.id ∧ r.volumeId = id
    let rest ← inGroup vm ids
    pure ((id, row.isSome) :: rest)

def volumeDicts (ops : Ops) (vm : VM) : Action (Option (List (String × Bool))) :=
  match ops.listVolumes vm.emsRef with
  | none => pure none
  | some ids => do
    let volumes ← inGroup vm ids
    pure (some volumes)

def vmDicts (ops : Ops) : List VM → Action (List (VM × Option (List (String × Bool))))
  | [] => pure []
  | vm :: vms => do
    let volumes ← volumeDicts ops vm
    let rest ← vmDicts ops vms
    pure ((vm, volumes) :: rest)

/-- The listing of the groups that a page selects. -/
def listVolumeGroups (page : Db → List VolumeGroup) : Action (List (VolumeGroup × Bool)) := do
  let groups ← query page
  inJob groups

/-- The listing of the VMs that a page selects. -/
def listVms (ops : Option Ops) (page : Db → List VM) :
    Action (Option (List (VM × Option (List (String × Bool))))) := do
  let vms ← query page
  match vms, ops with
  | [], _ => pure none
  | _, none => pure none
  | vms, some ops => do
    let dicts ← vmDicts ops vms
    pure (some dicts)

end VMController

end Benji.Services

import Benji.Services.VolumeGroup

/-! The handlers of schedule jobs. -/
namespace Benji.Services
open Lib

structure CreateScheduleJob where
  groupId : ℕ
  name : Option String
  mode : String
  daysOfWeek : List String
  startTime : ℤ
  compression : Option String
  retention : ℤ
  userId : Option ℕ
deriving DecidableEq

structure UpdateScheduleJob where
  name : Option String
  mode : Option String
  daysOfWeek : Option (List String)
  startTime : Option ℤ
  compression : Option String
  retention : Option ℤ
  userName : Option String
deriving DecidableEq

/-- The days of a job that keeps its versions for the GFS policy. -/
def allDays : List String := ["mon", "tue", "wed", "thu", "fri", "sat", "sun"]

/-- `policy.exclude_woking_time`, from the minute drawn between 17:00 and 32:00. -/
def excludeWokingTime (drawn : ℤ) : ℤ := if 1440 ≤ drawn then drawn - 1440 else drawn

namespace Db

def putScheduleJob (d : Db) (job : ScheduleJob) : Db :=
  { d with scheduleJobs := mergeRow ScheduleJob.id job d.scheduleJobs }

def acceptsScheduleJob (job : ScheduleJob) (d : Db) : Bool :=
  (d.volumeGroups.any fun g => g.id = job.groupId) && d.storages.any fun s => s.id = job.storageId

/-- The constraints of a row: its foreign keys, and no other row of its volume. -/
def acceptsVolumeScheduleJob (row : VolumeScheduleJob) (d : Db) : Bool :=
  (d.scheduleJobs.any fun j => j.id = row.sjId) && (d.vms.any fun v => v.id = row.vmId) &&
    d.volumeScheduleJobs.all fun r => r.volumeId = row.volumeId → r.sjId = row.sjId

def putVolumeScheduleJob (d : Db) (row : VolumeScheduleJob) : Db :=
  { d with volumeScheduleJobs := mergeRow (fun r => (r.sjId, r.volumeId)) row d.volumeScheduleJobs }

/-- No row refers to the job. -/
def jobUnused (id : ℕ) (d : Db) : Bool := d.volumeScheduleJobs.all fun r => r.sjId ≠ id

def deleteJob (id : ℕ) (d : Db) : Db :=
  { d with scheduleJobs := d.scheduleJobs.filter fun j => j.id ≠ id }

end Db

namespace ScheduleJobModel

def getStorage (name : String) : Action (Option Storage) :=
  lookup .storage fun d => d.storages.filter fun s => s.name = name

/-- `to_dict` of a job. -/
def toDict (job : ScheduleJob) : Action Response := do
  let rows ← query fun d => d.jobRows job.id
  pure (.job job rows)

/-- `VolumeScheduleJob(..).create()` for a row of the group; nobody looks at the error. -/
def createRow (sjId : ℕ) (row : VolumeBackupGroup) : Action Unit := do
  let new : VolumeScheduleJob := ⟨sjId, row.volumeId, row.volumeName, row.vmId⟩
  let _ ← save (Db.acceptsVolumeScheduleJob new) fun d => d.putVolumeScheduleJob new

def create (job : ScheduleJob) : Action Response := do
  let rows ← query fun d => d.groupRows job.groupId
  Proc.raiseIf (rows = []) (.refused 400 "Not found volumes in group")
  let saved ← save (Db.acceptsScheduleJob job) fun d => d.putScheduleJob job
  Proc.raiseIf (saved = false) (.refused 400 "Failed to create schedule job")
  Proc.forEach (createRow job.id) rows
  toDict job

/-- `update`, with the columns that a request may set. -/
def update (job : ScheduleJob) (daysOfWeek : List String) (req : UpdateScheduleJob) :
    Action Response := do
  let job := { job with
    name := req.name.getD job.name
    retention := req.retention.getD job.retention
    daysOfWeek := ",".intercalate daysOfWeek
    startTime := req.startTime.getD job.startTime
    mode := req.mode.or job.mode
    compression := req.compression.or job.compression }
  let _ ← save (fun _ => true) fun d => d.putScheduleJob job
  toDict job

def delete (id : ℕ) : Action Response := do
  execute (Db.deleteJobRows id)
  let deleted ← save (Db.jobUnused id) (Db.deleteJob id)
  Proc.raiseIf (deleted = false) (.refused 400 "Failed to commit object in database")
  pure .nothing

end ScheduleJobModel

namespace ScheduleJobController

def getScheduleJob (id : ℕ) : Action Response := do
  let job ← query fun d => d.getScheduleJob id
  let job ← Proc.ofOption job (.refused 404 "Not found item")
  ScheduleJobModel.toDict job

/-- The storage that a new job writes to. -/
def storageOfUser (ctx : Context) (userId : Option ℕ) : Action (Option Storage) :=
  if ctx.isAdmin then
    lookup .storage fun d => d.storages.filter fun s => some s.userId = userId
  else
    ScheduleJobModel.getStorage ctx.user.userName

/-- The row of a new job. A retention of -1 is the GFS policy, at a time drawn for it. -/
def newJob (newId : ℕ) (uuid : String) (drawn : ℤ) (storageId : ℕ) (req : CreateScheduleJob) :
    ScheduleJob where
  id := newId
  groupId := req.groupId
  storageId := storageId
  name := VolumeGroupModel.given req.name uuid
  retention := req.retention
  daysOfWeek := ",".intercalate (if req.retention = -1 then allDays else req.daysOfWeek)
  startTime := if req.retention = -1 then excludeWokingTime drawn else req.startTime
  mode := some req.mode
  compression := req.compression

def createScheduleJob (ctx : Context) (newId : ℕ) (uuid : String) (drawn : ℤ)
    (req : CreateScheduleJob) : Action Response := do
  Proc.raiseIf (req.startTime < 0 ∨ req.startTime > 1440)
    (.refused 400 "Start time is out of range")
  Proc.raiseIf (req.retention < -1 ∨ req.retention > 360 ∨ req.retention = 0)
    (.refused 400 "Retention is out of range valid")
  let group ← query fun d => d.getVolumeGroup req.groupId
  let group ← Proc.ofOption group (.refused 403 "Resource not found")
  Proc.raiseIf (ctx.isAdmin = false ∧ group.userId ≠ ctx.user.id)
    (.refused 403 "User action not allowed")
  let jobs ← query (Db.jobsOfGroup req.groupId)
  Proc.raiseIf (jobs ≠ []) (.refused 400 s!"group {group.name} already have a policy")
  let storage ← storageOfUser ctx req.userId
  let storage ← Proc.ofOption storage (.refused 404 "Not found storage name")
  -- only an administrator's handler takes the user out of the arguments
  Proc.raiseIf (ctx.isAdmin = false ∧ req.userId.isSome = true) .typeError
  ScheduleJobModel.create (newJob newId uuid drawn storage.id req)

/-- The days that an update sets. -/
def newDays (job : ScheduleJob) (req : UpdateScheduleJob) : Option (List String) :=
  if req.retention = some (-1) ∨ req.retention = none ∧ job.retention = -1 then some allDays
  else req.daysOfWeek

def updateScheduleJob (ctx : Context) (id : ℕ) (req : UpdateScheduleJob) : Action Response := do
  let job ← query fun d => d.getScheduleJob id
  let job ← Proc.ofOption job (.refused 400 "Not found item")
  let storage ← ScheduleJobModel.getStorage ctx.user.userName
  let storage ← Proc.ofOption storage (.refused 400 "Not found storage name")
  Proc.raiseIf (ctx.isAdmin = false ∧ storage.id ≠ job.storageId)
    (.refused 403 "User action not allowed")
  Proc.raiseIf (req.retention.any fun r => r < -1 ∨ r = 0 ∨ r > 360)
    (.refused 400 "Retention is out of range valid -1, 1-360")
  Proc.raiseIf (req.startTime.any fun t => t < 0 ∨ t > 1440)
    (.refused 400 "Start_time is out of range valid 0-1440(minutes)")
  Proc.raiseIf (req.userName.isSome = true) .typeError
  let days ← Proc.ofOption (newDays job req) (.keyError "days_of_week")
  ScheduleJobModel.update job days req

def deleteScheduleJob (ctx : Context) (id : ℕ) : Action Response := do
  let job ← query fun d => d.getScheduleJob id
  let job ← Proc.ofOption job (.refused 404 "Not found item")
  let storage ← query fun d => d.getStorage job.storageId
  let storage ← Proc.ofOption storage .attributeError
  Proc.raiseIf (ctx.isAdmin = false ∧ storage.userId ≠ ctx.user.id)
    (.refused 403 "User action not allowed")
  ScheduleJobModel.delete id

end ScheduleJobController

end Benji.Services

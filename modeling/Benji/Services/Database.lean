import Mathlib.Data.List.Basic
import Mathlib.Data.Int.Notation
import Mathlib.Data.List.Nodup
import Benji.Lib.Safe

/-! The tables behind the services, and the session through which the handlers of requests read
and write them. -/
namespace Benji.Services
open Lib

structure User where
  id : ℕ
  userName : String
deriving DecidableEq

structure VM where
  id : ℕ
  name : String
  emsRef : Option String
  userId : ℕ
deriving DecidableEq

structure Node where
  id : ℕ
  name : String
  host : String
  port : ℕ
  deleted : Bool
deriving DecidableEq

structure Storage where
  id : ℕ
  name : String
  userId : ℕ
  nodeId : ℕ
deriving DecidableEq

structure VolumeGroup where
  id : ℕ
  name : String
  description : Option String
  userId : ℕ
deriving DecidableEq

/-- The primary key is the group and the volume; the volume is unique by itself. -/
structure VolumeBackupGroup where
  groupId : ℕ
  volumeId : String
  volumeName : Option String
  vmId : ℕ
deriving DecidableEq

structure ScheduleJob where
  id : ℕ
  groupId : ℕ
  storageId : ℕ
  name : String
  retention : ℤ
  daysOfWeek : String
  startTime : ℤ
  mode : Option String
  compression : Option String
deriving DecidableEq

/-- The primary key is the job and the volume; the volume is unique by itself. -/
structure VolumeScheduleJob where
  sjId : ℕ
  volumeId : String
  volumeName : Option String
  vmId : ℕ
deriving DecidableEq

inductive VersionStatus | incomplete | valid | invalid
deriving DecidableEq

structure Version where
  id : ℕ
  uid : String
  volume : String
  volumeName : Option String
  vmId : ℕ
  storageId : ℕ
  size : ℕ
  status : VersionStatus
  isProtected : Bool
  labels : List (String × String)
deriving DecidableEq

structure Db where
  users : List User
  vms : List VM
  nodes : List Node
  storages : List Storage
  volumeGroups : List VolumeGroup
  volumeBackupGroups : List VolumeBackupGroup
  scheduleJobs : List ScheduleJob
  volumeScheduleJobs : List VolumeScheduleJob
  versions : List Version
deriving DecidableEq

/-- What a session of the database has committed, and what its queries see: the same with the
changes of the open transaction. -/
structure Session where
  committed : Db
  pending : Db
deriving DecidableEq

inductive Model | vm | storage | scheduleJob | volumeBackupGroup
deriving DecidableEq

/-- What ends a handler early. `refused` is an error set in the context by a handler that then
returns; the others are exceptions, which the API turns into an internal server error. -/
inductive Error
  | refused (status : ℕ) (message : String)
  | multipleResultsFound (model : Model)
  | keyError (key : String)
  | typeError
  | attributeError
  | valueError
  | integrityError
deriving DecidableEq

/-- What a handler sends to a task of a backup node. -/
inductive Task
  | restore (host : String) (port : ℕ) (versionId : ℕ) (volume : String) (sparse force : Bool)
  | delete (host : String) (port : ℕ) (versionId : ℕ) (force keepMetadataBackup overrideLock : Bool)
deriving DecidableEq

/-- The response of a handler, and the task that it starts. -/
inductive Response
  | nothing
  | group (group : VolumeGroup) (volumes : List VolumeBackupGroup)
  | job (job : ScheduleJob) (volumes : List VolumeScheduleJob)
  | version (version : Version)
  | versions (versions : List Version)
  | started (task : Task)
deriving DecidableEq

abbrev Action := Proc Error Session

def query {α : Type} (f : Db → α) : Action α := fun s => some (.ok (f s.pending), s)

/-- A statement that is not committed by itself. -/
def execute (f : Db → Db) : Action Unit := Proc.modify fun s => { s with pending := f s.pending }

/-- Merge a row and commit: a row that breaks a constraint (`ok` says which do not) rolls the open
transaction back. -/
def save (ok : Db → Bool) (f : Db → Db) : Action Bool := fun s =>
  if ok s.pending then some (.ok true, ⟨f s.pending, f s.pending⟩)
  else some (.ok false, ⟨s.committed, s.committed⟩)

def oneOrNone {α : Type} (model : Model) : List α → Action (Option α)
  | [] => pure none
  | [a] => pure (some a)
  | _ :: _ :: _ => Proc.raise (.multipleResultsFound model)

/-- `raw_query().filter(..).one_or_none()`. -/
def lookup {α : Type} (model : Model) (f : Db → List α) : Action (Option α) :=
  query f >>= oneOrNone model

/-- Add a row, or put it in the place of the row that has its primary key. -/
def mergeRow {α κ : Type} [DecidableEq κ] (key : α → κ) (row : α) (rows : List α) : List α :=
  rows.filter (fun a => key a ≠ key row) ++ [row]

/-- The user who makes a request. -/
structure Context where
  user : User
  isAdmin : Bool
deriving DecidableEq

namespace Db

def getVolumeGroup (d : Db) (id : ℕ) : Option VolumeGroup :=
  d.volumeGroups.find? fun g => g.id = id

def getScheduleJob (d : Db) (id : ℕ) : Option ScheduleJob :=
  d.scheduleJobs.find? fun j => j.id = id

def getVersion (d : Db) (id : ℕ) : Option Version := d.versions.find? fun v => v.id = id

def getStorage (d : Db) (id : ℕ) : Option Storage := d.storages.find? fun s => s.id = id

def getNode (d : Db) (id : ℕ) : Option Node := d.nodes.find? fun n => n.id = id

def getVm (d : Db) (id : ℕ) : Option VM := d.vms.find? fun v => v.id = id

/-- The rows of a group. -/
def groupRows (d : Db) (groupId : ℕ) : List VolumeBackupGroup :=
  d.volumeBackupGroups.filter fun r => r.groupId = groupId

/-- The rows of a job. -/
def jobRows (d : Db) (sjId : ℕ) : List VolumeScheduleJob :=
  d.volumeScheduleJobs.filter fun r => r.sjId = sjId

end Db

section Primitives
variable {α : Type} {s t : Session}

@[simp] theorem returns_query {f : Db → α} {a : α} :
    (query f).Returns s a t ↔ f s.pending = a ∧ s = t := by
  simp [Proc.Returns, query]

@[simp] theorem raises_query {f : Db → α} {e : Error} : ¬ (query f).Raises s e t := by
  simp [Proc.Raises, query]

theorem returns_execute {f : Db → Db} :
    (execute f).Returns s () ⟨s.committed, f s.pending⟩ := rfl

theorem returns_save_true {ok : Db → Bool} {f : Db → Db} (h : ok s.pending = true) :
    (save ok f).Returns s true ⟨f s.pending, f s.pending⟩ := by
  unfold Proc.Returns save
  rw [if_pos h]

theorem returns_save_false {ok : Db → Bool} {f : Db → Db} (h : ok s.pending = false) :
    (save ok f).Returns s false ⟨s.committed, s.committed⟩ := by
  unfold Proc.Returns save
  rw [if_neg (by simp [h])]

@[simp] theorem raises_save {ok : Db → Bool} {f : Db → Db} {e : Error} :
    ¬ (save ok f).Raises s e t := by
  unfold Proc.Raises save
  split <;> simp

theorem mem_mergeRow {κ : Type} [DecidableEq κ] {key : α → κ} {row a : α} {rows : List α} :
    a ∈ mergeRow key row rows ↔ a = row ∨ a ∈ rows ∧ key a ≠ key row := by
  simp only [mergeRow, List.mem_append, List.mem_filter, decide_eq_true_eq, List.mem_singleton]
  exact or_comm

/-- A lookup for at most one row does not fail where there is at most one. -/
theorem returns_lookup {model : Model} {f : Db → List α} (h : (f s.pending).length ≤ 1) :
    (lookup model f).Returns s (f s.pending).head? s := by
  refine Proc.returns_bind.mpr ⟨_, s, returns_query.mpr ⟨rfl, rfl⟩, ?_⟩
  match hrows : f s.pending with
  | [] => exact Proc.returns_pure.mpr ⟨rfl, rfl⟩
  | [a] => exact Proc.returns_pure.mpr ⟨rfl, rfl⟩
  | a :: b :: rest => simp [hrows] at h

end Primitives

/-- Both the committed rows and those the session sees. -/
def Both (I : Db → Prop) (s : Session) : Prop := I s.committed ∧ I s.pending

section Safe
variable {α : Type} {I : Db → Prop} {bad : Error → Prop}

theorem safe_query {J : Session → Prop} {f : Db → α} : (query f).Safe J bad := by
  rintro s r t ⟨⟩ hs
  exact ⟨hs, fun _ h => by cases h⟩

theorem leads_query_bind {β : Type} {P J : Session → Prop} {f : Db → α} {k : α → Action β}
    (h : ∀ a, (k a).Leads (fun s => P s ∧ f s.pending = a) J bad) :
    (query f >>= k).Leads P J bad := fun _ _ _ hrun hs => h _ hrun ⟨hs, rfl⟩

theorem safe_execute {f : Db → Db} (h : ∀ d, I d → I (f d)) : (execute f).Safe (Both I) bad :=
  Proc.Safe.modify fun s hs => ⟨hs.1, h s.pending hs.2⟩

theorem safe_save {ok : Db → Bool} {f : Db → Db} (h : ∀ d, I d → ok d = true → I (f d)) :
    (save ok f).Safe (Both I) bad := by
  intro s r t hrun hs
  unfold save at hrun
  split at hrun
  · rename_i hok
    cases hrun
    have hf := h s.pending hs.2 hok
    exact ⟨⟨hf, hf⟩, fun _ h => by cases h⟩
  · cases hrun
    exact ⟨⟨hs.1, hs.1⟩, fun _ h => by cases h⟩

theorem safe_lookup {J : Session → Prop} {model : Model} {f : Db → List α}
    (h : bad (.multipleResultsFound model) → ∀ s, J s → (f s.pending).length ≤ 1) :
    (lookup model f).Safe J bad := by
  intro s r t hrun hs
  have hq : (query f).Returns s (f s.pending) s := returns_query.mpr ⟨rfl, rfl⟩
  have heq : lookup model f s = oneOrNone model (f s.pending) s := hq.bind_eq
  rw [heq] at hrun
  match hrows : f s.pending with
  | [] =>
    rw [hrows] at hrun
    cases hrun
    exact ⟨hs, fun _ h => by cases h⟩
  | [a] =>
    rw [hrows] at hrun
    cases hrun
    exact ⟨hs, fun _ h => by cases h⟩
  | a :: b :: rest =>
    rw [hrows] at hrun
    cases hrun
    refine ⟨hs, ?_⟩
    rintro _ ⟨⟩ hbad
    have hlen := h hbad s hs
    rw [hrows] at hlen
    simp at hlen

end Safe

end Benji.Services

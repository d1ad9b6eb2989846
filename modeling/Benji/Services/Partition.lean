import Benji.Lib.Steps
import Benji.Services.ScheduleJob

/-! Runs of requests about groups and jobs. A volume is in one group at most, and a group has one
job at most, so no lookup of a row of a volume or of the job of a group finds two. -/
namespace Benji.Services
open Lib

inductive Request
  | createVolumeGroup (ctx : Context) (newId : ℕ) (ops : Option Ops) (req : CreateVolumeGroup)
  | updateVolumeGroup (ctx : Context) (id : ℕ) (req : UpdateVolumeGroup)
  | deleteVolumeGroup (ctx : Context) (id : ℕ)
  | createScheduleJob (ctx : Context) (newId : ℕ) (uuid : String) (drawn : ℤ)
      (req : CreateScheduleJob)
  | updateScheduleJob (ctx : Context) (id : ℕ) (req : UpdateScheduleJob)
  | deleteScheduleJob (ctx : Context) (id : ℕ)

namespace Request

def handler : Request → Action Response
  | createVolumeGroup ctx newId ops req => VMController.createVolumeGroup ctx newId ops req
  | updateVolumeGroup ctx id req => VMController.updateVolumeGroup ctx id req
  | deleteVolumeGroup ctx id => VMController.deleteVolumeGroup ctx id
  | createScheduleJob ctx newId uuid drawn req =>
    ScheduleJobController.createScheduleJob ctx newId uuid drawn req
  | updateScheduleJob ctx id req => ScheduleJobController.updateScheduleJob ctx id req
  | deleteScheduleJob ctx id => ScheduleJobController.deleteScheduleJob ctx id

/-- The id that the database gives to a new row is not taken. -/
def newIdFree (d : Db) : Request → Bool
  | createVolumeGroup _ newId _ _ => d.volumeGroups.all fun g => g.id ≠ newId
  | createScheduleJob _ newId _ _ _ => d.scheduleJobs.all fun j => j.id ≠ newId
  | _ => true

end Request

/-- A request that the session serves, or another session that takes its place; what the old one
did not commit is lost then. -/
inductive Event
  | serve (req : Request)
  | newSession

def step (s : Session) : Event → Option Session
  | .serve req =>
    if req.newIdFree s.committed && req.newIdFree s.pending then
      (req.handler s).map Prod.snd
    else none
  | .newSession => some ⟨s.committed, s.committed⟩

theorem step_serve {s t : Session} {req : Request} : step s (.serve req) = some t ↔
    (req.newIdFree s.committed && req.newIdFree s.pending) = true ∧
      ∃ r, req.handler s = some (r, t) := by
  rw [step, Option.ite_none_right_eq_some, Option.map_eq_some_iff]
  constructor
  · intro ⟨hfree, ⟨r, u⟩, hrun, hu⟩
    exact ⟨hfree, r, hu ▸ hrun⟩
  · intro ⟨hfree, r, hrun⟩
    exact ⟨hfree, (r, t), hrun, rfl⟩

/-- Users, VMs and storages, before there is a group. -/
def Db.start (users : List User) (vms : List VM) (nodes : List Node) (storages : List Storage)
    (versions : List Version) : Db where
  users := users
  vms := vms
  nodes := nodes
  storages := storages
  volumeGroups := []
  volumeBackupGroups := []
  scheduleJobs := []
  volumeScheduleJobs := []
  versions := versions

structure Partitioned (d : Db) : Prop where
  volumes : (d.volumeBackupGroups.map VolumeBackupGroup.volumeId).Nodup
  jobs : (d.scheduleJobs.map ScheduleJob.groupId).Nodup

section Rows
variable {α β κ : Type} [DecidableEq κ] {key : α → κ} {g : α → β} {row : α} {rows : List α}

theorem nodup_map_mergeRow (h : (rows.map g).Nodup)
    (hne : ∀ a ∈ rows, key a ≠ key row → g a ≠ g row) :
    ((mergeRow key row rows).map g).Nodup := by
  have hkept : ((rows.filter fun a => key a ≠ key row).map g).Nodup :=
    h.sublist (List.filter_sublist.map g)
  rw [mergeRow, List.map_append, List.map_singleton, List.nodup_append]
  refine ⟨hkept, List.nodup_singleton _, ?_⟩
  intro x hx y hy
  obtain ⟨a, ha, rfl⟩ := List.mem_map.mp hx
  obtain ⟨hmem, hkey⟩ := List.mem_filter.mp ha
  rw [List.mem_singleton.mp hy]
  exact hne a hmem (of_decide_eq_true hkey)

theorem length_filter_le_one {p : α → Bool} {x : β} (h : (rows.map g).Nodup)
    (hp : ∀ a, p a = true → g a = x) : (rows.filter p).length ≤ 1 := by
  have hnodup : ((rows.filter p).map g).Nodup := h.sublist (List.filter_sublist.map g)
  have hall : ∀ y ∈ (rows.filter p).map g, y = x := by
    intro y hy
    obtain ⟨a, ha, rfl⟩ := List.mem_map.mp hy
    exact hp a (List.mem_filter.mp ha).2
  rw [List.eq_replicate_of_mem hall, List.nodup_replicate, List.length_map] at hnodup
  exact hnodup

end Rows

namespace Partitioned
variable {d : Db}

theorem start {users : List User} {vms : List VM} {nodes : List Node} {storages : List Storage}
    {versions : List Version} : Partitioned (.start users vms nodes storages versions) :=
  ⟨List.nodup_nil, List.nodup_nil⟩

theorem putVolumeBackupGroup {row : VolumeBackupGroup} (h : Partitioned d)
    (hok : d.acceptsVolumeBackupGroup row = true) : Partitioned (d.putVolumeBackupGroup row) where
  volumes := by
    apply nodup_map_mergeRow h.volumes
    intro r hr hkey hvolume
    simp only [Db.acceptsVolumeBackupGroup, Bool.and_eq_true, List.all_eq_true,
      decide_eq_true_eq] at hok
    exact hkey (Prod.ext (hok.2 r hr hvolume) hvolume)
  jobs := h.jobs

theorem deleteGroupRows (h : Partitioned d) (groupId : ℕ) :
    Partitioned (d.deleteGroupRows groupId) :=
  ⟨h.volumes.sublist (List.filter_sublist.map _), h.jobs⟩

theorem deleteJobsOfGroup (h : Partitioned d) (groupId : ℕ) :
    Partitioned (d.deleteJobsOfGroup groupId) :=
  ⟨h.volumes, h.jobs.sublist (List.filter_sublist.map _)⟩

theorem deleteJob (h : Partitioned d) (id : ℕ) : Partitioned (d.deleteJob id) :=
  ⟨h.volumes, h.jobs.sublist (List.filter_sublist.map _)⟩

/-- A new job of a group without one. -/
theorem putScheduleJob {job : ScheduleJob} (h : Partitioned d)
    (hnone : d.jobsOfGroup job.groupId = []) : Partitioned (d.putScheduleJob job) where
  volumes := h.volumes
  jobs := by
    apply nodup_map_mergeRow h.jobs
    intro j hj _ hgroup
    have hmem : j ∈ d.jobsOfGroup job.groupId :=
      List.mem_filter.mpr ⟨hj, decide_eq_true hgroup⟩
    rw [hnone] at hmem
    exact absurd hmem List.not_mem_nil

/-- A job that stays in its group. -/
theorem replaceScheduleJob {old job : ScheduleJob} (h : Partitioned d)
    (hold : d.getScheduleJob job.id = some old) (hgroup : job.groupId = old.groupId) :
    Partitioned (d.putScheduleJob job) where
  volumes := h.volumes
  jobs := by
    apply nodup_map_mergeRow h.jobs
    intro j hj hkey hsame
    have hmem : old ∈ d.scheduleJobs := List.mem_of_find?_eq_some hold
    have hid : old.id = job.id := of_decide_eq_true (List.find?_some hold :)
    have heq : j = old := List.inj_on_of_nodup_map h.jobs hj hmem (hsame.trans hgroup)
    exact hkey (heq ▸ hid)

theorem length_jobsOfGroup (h : Partitioned d) (groupId : ℕ) :
    (d.jobsOfGroup groupId).length ≤ 1 :=
  length_filter_le_one h.jobs fun _ hp => of_decide_eq_true hp

end Partitioned

/-- A lookup finds two rows where there is one at most: a volume in two groups, or a group with
two jobs. -/
def FindsTwo (e : Error) : Prop :=
  e = .multipleResultsFound .volumeBackupGroup ∨ e = .multipleResultsFound .scheduleJob

abbrev Keeping {α : Type} (p : Action α) : Prop := p.Safe (Both Partitioned) FindsTwo

section Lookups
variable {J : Session → Prop} {bad : Error → Prop}

theorem safe_lookup_rows {p : VolumeBackupGroup → Bool} {id : String}
    (hJ : ∀ s, J s → Partitioned s.pending) (hp : ∀ r, p r = true → r.volumeId = id) :
    (lookup .volumeBackupGroup fun d => d.volumeBackupGroups.filter p).Safe J bad :=
  safe_lookup fun _ s hs => length_filter_le_one (hJ s hs).volumes hp

theorem safe_lookup_job {groupId : ℕ} (hJ : ∀ s, J s → Partitioned s.pending) :
    (lookup .scheduleJob (Db.jobsOfGroup groupId)).Safe J bad :=
  safe_lookup fun _ s hs => (hJ s hs).length_jobsOfGroup groupId

/-- No user has two VMs with one reference. -/
def DistinctVms (d : Db) : Prop :=
  d.vms.Pairwise fun v w => v.emsRef.isSome → v.emsRef = w.emsRef → v.userId ≠ w.userId

instance (d : Db) : Decidable (DistinctVms d) := inferInstanceAs (Decidable (List.Pairwise _ _))

theorem DistinctVms.length_le_one {d : Db} {server : String} {userId : ℕ} (h : DistinctVms d) :
    (d.vms.filter fun v => v.emsRef = some server ∧ v.userId = userId).length ≤ 1 := by
  have hpairwise := h.sublist
    (List.filter_sublist (p := fun v => v.emsRef = some server ∧ v.userId = userId))
  have hmem : ∀ v ∈ d.vms.filter fun v => v.emsRef = some server ∧ v.userId = userId,
      v.emsRef = some server ∧ v.userId = userId :=
    fun v hv => of_decide_eq_true (List.mem_filter.mp hv).2
  generalize (d.vms.filter fun v => v.emsRef = some server ∧ v.userId = userId) = l
    at hpairwise hmem ⊢
  cases l with
  | nil => exact Nat.zero_le 1
  | cons v l =>
    cases l with
    | nil => exact Nat.le_refl 1
    | cons w l =>
      obtain ⟨hv, hvuser⟩ := hmem v List.mem_cons_self
      obtain ⟨hw, hwuser⟩ := hmem w (List.mem_cons_of_mem v List.mem_cons_self)
      have hne := (List.pairwise_cons.mp hpairwise).1 w List.mem_cons_self
      exact absurd (hvuser.trans hwuser.symm) (hne (by rw [hv]; rfl) (hv.trans hw.symm))

theorem safe_validVolume {userId : Option ℕ} {servers : List String}
    (hkey : ¬ bad (.keyError "user_id"))
    (hvms : bad (.multipleResultsFound .vm) → ∀ s, J s → DistinctVms s.pending) :
    (VMController.validVolume userId servers).Safe J bad := by
  induction servers with
  | nil => exact Proc.Safe.pure
  | cons server servers ih =>
    refine Proc.Safe.bind (Proc.Safe.ofOption hkey) fun id => ?_
    have hvm : (lookup .vm fun d =>
        d.vms.filter fun v => v.emsRef = some server ∧ v.userId = id).Safe J bad :=
      safe_lookup fun hbad s hs => (hvms hbad s hs).length_le_one
    exact Proc.Safe.bind hvm fun vm => Proc.Safe.ite Proc.Safe.pure ih

/-- Nothing else is bad than that a lookup finds two rows. -/
def Narrow (bad : Error → Prop) : Prop := ∀ e, bad e → ∃ model, e = .multipleResultsFound model

theorem safe_checkVolume {ops : Ops} {userId : Option ℕ} {volume : VolumeArg}
    (hbad : Narrow bad) (hJ : ∀ s, J s → Partitioned s.pending)
    (hvms : bad (.multipleResultsFound .vm) → ∀ s, J s → DistinctVms s.pending) :
    (VMController.checkVolume ops userId volume).Safe J bad := by
  have hno {e : Error} (he : ∀ model, e ≠ .multipleResultsFound model) : ¬ bad e := by
    intro h
    obtain ⟨model, heq⟩ := hbad e h
    exact he model heq
  refine Proc.Safe.bind (Proc.Safe.ofOption (hno nofun)) fun id => ?_
  have hrows : (lookup .volumeBackupGroup fun d =>
      d.volumeBackupGroups.filter fun r => r.volumeId = id).Safe J bad :=
    safe_lookup_rows hJ fun r hp => of_decide_eq_true hp
  refine Proc.Safe.bind hrows fun row => ?_
  refine Proc.Safe.bind (Proc.Safe.raiseIf (hno nofun)) fun _ => ?_
  refine Proc.Safe.bind (Proc.Safe.ofOption (hno nofun)) fun servers => ?_
  refine Proc.Safe.bind (safe_validVolume (hno nofun) hvms) fun valid => ?_
  exact Proc.Safe.raiseIf (hno nofun)

theorem narrow_findsTwo : Narrow FindsTwo := by
  rintro e (rfl | rfl)
  · exact ⟨_, rfl⟩
  · exact ⟨_, rfl⟩

theorem safe_getStorage {name : String} : (ScheduleJobModel.getStorage name).Safe J FindsTwo :=
  safe_lookup fun h => absurd h (by simp [FindsTwo])

theorem safe_storageOfUser {ctx : Context} {userId : Option ℕ} :
    (ScheduleJobController.storageOfUser ctx userId).Safe J FindsTwo :=
  Proc.Safe.ite (safe_lookup fun h => absurd h (by simp [FindsTwo])) safe_getStorage

theorem safe_groupDict {group : VolumeGroup} :
    (VolumeGroupModel.toDict group).Safe J FindsTwo :=
  Proc.Safe.bind safe_query fun _ => Proc.Safe.pure

theorem safe_jobDict {job : ScheduleJob} : (ScheduleJobModel.toDict job).Safe J FindsTwo :=
  Proc.Safe.bind safe_query fun _ => Proc.Safe.pure

theorem safe_inJob {groups : List VolumeGroup} (hJ : ∀ s, J s → Partitioned s.pending) :
    (VMController.inJob groups).Safe J bad := by
  induction groups with
  | nil => exact Proc.Safe.pure
  | cons group groups ih =>
    exact Proc.Safe.bind (safe_lookup_job hJ) fun _ => Proc.Safe.bind ih fun _ => Proc.Safe.pure

theorem safe_inGroup {vm : VM} {ids : List String} (hJ : ∀ s, J s → Partitioned s.pending) :
    (VMController.inGroup vm ids).Safe J bad := by
  induction ids with
  | nil => exact Proc.Safe.pure
  | cons id ids ih =>
    have hrows : (lookup .volumeBackupGroup fun d =>
        d.volumeBackupGroups.filter fun r => r.vmId = vm.id ∧ r.volumeId = id).Safe J bad :=
      safe_lookup_rows hJ fun r hp => (of_decide_eq_true hp).2
    exact Proc.Safe.bind hrows fun _ => Proc.Safe.bind ih fun _ => Proc.Safe.pure

theorem safe_volumeDicts {ops : Ops} {vm : VM} (hJ : ∀ s, J s → Partitioned s.pending) :
    (VMController.volumeDicts ops vm).Safe J bad := by
  unfold VMController.volumeDicts
  cases ops.listVolumes vm.emsRef with
  | none => exact Proc.Safe.pure
  | some ids => exact Proc.Safe.bind (safe_inGroup hJ) fun _ => Proc.Safe.pure

theorem safe_vmDicts {ops : Ops} {vms : List VM} (hJ : ∀ s, J s → Partitioned s.pending) :
    (VMController.vmDicts ops vms).Safe J bad := by
  induction vms with
  | nil => exact Proc.Safe.pure
  | cons vm vms ih =>
    exact Proc.Safe.bind (safe_volumeDicts hJ) fun _ =>
      Proc.Safe.bind ih fun _ => Proc.Safe.pure

theorem safe_listVolumeGroups {page : Db → List VolumeGroup}
    (hJ : ∀ s, J s → Partitioned s.pending) : (VMController.listVolumeGroups page).Safe J bad :=
  Proc.Safe.bind safe_query fun _ => safe_inJob hJ

theorem safe_listVms {ops : Option Ops} {page : Db → List VM}
    (hJ : ∀ s, J s → Partitioned s.pending) : (VMController.listVms ops page).Safe J bad := by
  refine Proc.Safe.bind safe_query fun vms => ?_
  cases vms with
  | nil => exact Proc.Safe.pure
  | cons vm vms =>
    cases ops with
    | none => exact Proc.Safe.pure
    | some ops => exact Proc.Safe.bind (safe_vmDicts hJ) fun _ => Proc.Safe.pure

end Lookups

/-! ### What a controller looks at before it calls its model -/

section Controllers
variable {P I : Session → Prop} {ctx : Context} {id newId : ℕ}

theorem leads_createVolumeGroup {ops : Option Ops} {req : CreateVolumeGroup}
    (hP : ∀ s, P s → I s) (hJ : ∀ s, P s → Partitioned s.pending)
    (h : ∀ userId, (VolumeGroupModel.create newId userId req).Leads P I FindsTwo) :
    (VMController.createVolumeGroup ctx newId ops req).Leads P I FindsTwo := by
  cases ops with
  | none => exact Proc.Safe.pure.leads (I := I) hP
  | some ops =>
    have hcheck {userId : Option ℕ} :
        (Proc.forEach (VMController.checkVolume ops userId) req.volumes).Safe P FindsTwo :=
      Proc.Safe.forEach fun _ _ =>
        safe_checkVolume narrow_findsTwo hJ fun h => absurd h (by simp [FindsTwo])
    exact Proc.Leads.bind (hcheck.leads fun _ hs => hs) hP fun _ => h _

/-- The group that is worked on is the one that the session sees. -/
theorem leads_updateVolumeGroup {req : UpdateVolumeGroup} (hP : ∀ s, P s → I s)
    (h : ∀ group, VMController.visible ctx (some group) = true →
      (VolumeGroupModel.update id req).Leads
        (fun s => P s ∧ s.pending.getVolumeGroup id = some group) I FindsTwo) :
    (VMController.updateVolumeGroup ctx id req).Leads P I FindsTwo := by
  refine leads_query_bind fun group => ?_
  refine Proc.Leads.raiseIf_bind (by simp [FindsTwo]) (fun s hs => hP s hs.1) fun hvisible => ?_
  refine Proc.Leads.ofOption_bind (by simp [FindsTwo]) (fun s hs => hP s hs.1) fun g hg => ?_
  subst hg
  intro s r t hrun hs
  have hid : g.id = id := of_decide_eq_true (List.find?_some hs.2 :)
  rw [hid] at hrun
  exact h g (by simpa using hvisible) hrun hs

theorem safe_deleteVolumeGroup (h : (VolumeGroupModel.delete id).Safe I FindsTwo) :
    (VMController.deleteVolumeGroup ctx id).Safe I FindsTwo := by
  refine Proc.Safe.bind safe_query fun group => ?_
  refine Proc.Safe.bind (Proc.Safe.ofOption (by simp [FindsTwo])) fun group => ?_
  exact Proc.Safe.bind (Proc.Safe.raiseIf (by simp [FindsTwo])) fun _ => h

/-- The group has no job in what the session sees. -/
def NoJob (groupId : ℕ) (s : Session) : Prop := s.pending.jobsOfGroup groupId = []

theorem leads_createScheduleJob {uuid : String} {drawn : ℤ} {req : CreateScheduleJob}
    (hP : ∀ s, P s → I s)
    (h : ∀ storageId, (ScheduleJobModel.create
      (ScheduleJobController.newJob newId uuid drawn storageId req)).Leads
        (fun s => P s ∧ NoJob req.groupId s) I FindsTwo) :
    (ScheduleJobController.createScheduleJob ctx newId uuid drawn req).Leads P I FindsTwo := by
  refine Proc.Leads.raiseIf_bind (by simp [FindsTwo]) hP fun _ => ?_
  refine Proc.Leads.raiseIf_bind (by simp [FindsTwo]) hP fun _ => ?_
  refine Proc.Leads.bind (safe_query.leads fun _ hs => hs) hP fun group => ?_
  refine Proc.Leads.ofOption_bind (by simp [FindsTwo]) hP fun group _ => ?_
  refine Proc.Leads.raiseIf_bind (by simp [FindsTwo]) hP fun _ => ?_
  refine leads_query_bind fun jobs => ?_
  refine Proc.Leads.raiseIf_bind (by simp [FindsTwo]) (fun s hs => hP s hs.1) fun hjobs => ?_
  refine Proc.Leads.bind (Q := fun s => P s ∧ NoJob req.groupId s) (safe_storageOfUser.leads ?_)
    (fun s hs => hP s hs.1) fun storage => ?_
  · intro s hs
    exact ⟨hs.1, hs.2.trans (not_not.mp hjobs)⟩
  · refine Proc.Leads.ofOption_bind (by simp [FindsTwo]) (fun s hs => hP s hs.1)
      fun storage _ => ?_
    refine Proc.Leads.raiseIf_bind (by simp [FindsTwo]) (fun s hs => hP s hs.1) fun _ => ?_
    exact h storage.id

/-- The job that is worked on is the one that the session sees. -/
theorem safe_updateScheduleJob {req : UpdateScheduleJob}
    (h : ∀ old days, (ScheduleJobModel.update old days req).Leads
      (fun s => I s ∧ s.pending.getScheduleJob old.id = some old) I FindsTwo) :
    (ScheduleJobController.updateScheduleJob ctx id req).Safe I FindsTwo := by
  refine Proc.Leads.safe (leads_query_bind fun job => ?_)
  refine Proc.Leads.ofOption_bind (by simp [FindsTwo]) (fun _ hs => hs.1) fun old hold => ?_
  refine Proc.Leads.bind (Q := fun s => I s ∧ s.pending.getScheduleJob old.id = some old)
    (safe_getStorage.leads ?_) (fun _ hs => hs.1) fun storage => ?_
  · intro s hs
    have hfound : s.pending.getScheduleJob id = some old := hs.2.trans hold
    have hid : old.id = id := of_decide_eq_true (List.find?_some hfound :)
    exact ⟨hs.1, hid ▸ hfound⟩
  · refine Proc.Leads.ofOption_bind (by simp [FindsTwo]) (fun _ hs => hs.1) fun storage _ => ?_
    refine Proc.Leads.raiseIf_bind (by simp [FindsTwo]) (fun _ hs => hs.1) fun _ => ?_
    refine Proc.Leads.raiseIf_bind (by simp [FindsTwo]) (fun _ hs => hs.1) fun _ => ?_
    refine Proc.Leads.raiseIf_bind (by simp [FindsTwo]) (fun _ hs => hs.1) fun _ => ?_
    refine Proc.Leads.raiseIf_bind (by simp [FindsTwo]) (fun _ hs => hs.1) fun _ => ?_
    refine Proc.Leads.ofOption_bind (by simp [FindsTwo]) (fun _ hs => hs.1) fun days _ => ?_
    exact h old days

theorem safe_deleteScheduleJob (h : (ScheduleJobModel.delete id).Safe I FindsTwo) :
    (ScheduleJobController.deleteScheduleJob ctx id).Safe I FindsTwo := by
  refine Proc.Safe.bind safe_query fun job => ?_
  refine Proc.Safe.bind (Proc.Safe.ofOption (by simp [FindsTwo])) fun job => ?_
  refine Proc.Safe.bind safe_query fun storage => ?_
  refine Proc.Safe.bind (Proc.Safe.ofOption (by simp [FindsTwo])) fun storage => ?_
  exact Proc.Safe.bind (Proc.Safe.raiseIf (by simp [FindsTwo])) fun _ => h

end Controllers

section VolumeGroups

theorem keeping_createRow {named : Bool} {groupId : ℕ} {volume : VolumeArg} :
    Keeping (VolumeGroupModel.createRow named groupId volume) := by
  refine Proc.Safe.bind (Proc.Safe.ofOption (by simp [FindsTwo])) fun id => ?_
  refine Proc.Safe.bind (Proc.Safe.ofOption (by simp [FindsTwo])) fun vmId => ?_
  refine Proc.Safe.bind (safe_save ?_) fun _ => Proc.Safe.pure
  intro d hd hok
  exact hd.putVolumeBackupGroup hok

theorem keeping_createGroup {newId : ℕ} {userId : Option ℕ} {req : CreateVolumeGroup} :
    Keeping (VolumeGroupModel.create newId userId req) := by
  refine Proc.Safe.bind (Proc.Safe.ofOption (by simp [FindsTwo])) fun userId => ?_
  refine Proc.Safe.bind (safe_save fun d hd _ => ⟨hd.volumes, hd.jobs⟩) fun saved => ?_
  refine Proc.Safe.bind (Proc.Safe.raiseIf (by simp [FindsTwo])) fun _ => ?_
  exact Proc.Safe.bind (Proc.Safe.forEach fun _ _ => keeping_createRow) fun _ => safe_groupDict

theorem keeping_replaceRows {id : ℕ} {volumes : List VolumeArg} :
    Keeping (VolumeGroupModel.replaceRows id volumes) := by
  have hdelete : Keeping (execute (Db.deleteGroupRows id)) :=
    safe_execute fun d hd => hd.deleteGroupRows id
  apply Proc.Safe.ite Proc.Safe.pure
  exact Proc.Safe.bind hdelete fun _ => Proc.Safe.forEach fun _ _ => keeping_createRow

theorem keeping_updateGroup {id : ℕ} {req : UpdateVolumeGroup} :
    Keeping (VolumeGroupModel.update id req) := by
  refine Proc.Safe.bind safe_query fun group => ?_
  refine Proc.Safe.bind (Proc.Safe.ofOption (by simp [FindsTwo])) fun group => ?_
  refine Proc.Safe.bind (safe_save fun d hd _ => ⟨hd.volumes, hd.jobs⟩) fun saved => ?_
  exact Proc.Safe.bind keeping_replaceRows fun _ => safe_groupDict

theorem keeping_deleteRowsOf {job : Option ScheduleJob} :
    Keeping (VolumeGroupModel.deleteRowsOf job) := by
  cases job with
  | none => exact Proc.Safe.pure
  | some job => exact safe_execute fun d hd => ⟨hd.volumes, hd.jobs⟩

theorem keeping_deleteGroup {id : ℕ} : Keeping (VolumeGroupModel.delete id) := by
  refine Proc.Safe.bind safe_query fun group => ?_
  refine Proc.Safe.bind (Proc.Safe.ofOption (by simp [FindsTwo])) fun _ => ?_
  refine Proc.Safe.bind (safe_lookup_job fun _ hs => hs.2) fun job => ?_
  refine Proc.Safe.bind keeping_deleteRowsOf fun _ => ?_
  refine Proc.Safe.bind safe_query fun unused => ?_
  refine Proc.Safe.bind (Proc.Safe.raiseIf (by simp [FindsTwo])) fun _ => ?_
  refine Proc.Safe.bind (safe_execute fun d hd => hd.deleteJobsOfGroup id) fun _ => ?_
  refine Proc.Safe.bind (safe_execute fun d hd => hd.deleteGroupRows id) fun _ => ?_
  refine Proc.Safe.bind (safe_save fun d hd _ => ⟨hd.volumes, hd.jobs⟩) fun deleted => ?_
  exact Proc.Safe.bind (Proc.Safe.raiseIf (by simp [FindsTwo])) fun _ => Proc.Safe.pure

theorem keeping_createVolumeGroup {ctx : Context} {newId : ℕ} {ops : Option Ops}
    {req : CreateVolumeGroup} : Keeping (VMController.createVolumeGroup ctx newId ops req) :=
  leads_createVolumeGroup (fun _ hs => hs) (fun _ hs => hs.2) fun _ => keeping_createGroup

theorem keeping_updateVolumeGroup {ctx : Context} {id : ℕ} {req : UpdateVolumeGroup} :
    Keeping (VMController.updateVolumeGroup ctx id req) :=
  leads_updateVolumeGroup (fun _ hs => hs) fun _ _ => keeping_updateGroup.leads fun _ hs => hs.1

end VolumeGroups

section ScheduleJobs

theorem keeping_createJobRow {sjId : ℕ} {row : VolumeBackupGroup} :
    Keeping (ScheduleJobModel.createRow sjId row) :=
  Proc.Safe.bind (safe_save fun _ hd _ => ⟨hd.volumes, hd.jobs⟩) fun _ => Proc.Safe.pure

theorem leads_createJob {job : ScheduleJob} :
    (ScheduleJobModel.create job).Leads
      (fun s => Both Partitioned s ∧ NoJob job.groupId s) (Both Partitioned) FindsTwo := by
  refine Proc.Leads.bind (safe_query.leads fun _ hs => hs) (fun _ hs => hs.1) fun rows => ?_
  refine Proc.Leads.raiseIf_bind (by simp [FindsTwo]) (fun _ hs => hs.1) fun _ => ?_
  have hsave : (save (Db.acceptsScheduleJob job) fun d => d.putScheduleJob job).Leads
      (fun s => Both Partitioned s ∧ NoJob job.groupId s) (Both Partitioned) FindsTwo := by
    intro s r t hrun hs
    unfold save at hrun
    split at hrun
    · cases hrun
      have hput := hs.1.2.putScheduleJob hs.2
      exact ⟨⟨hput, hput⟩, fun _ h => by cases h⟩
    · cases hrun
      exact ⟨⟨hs.1.1, hs.1.1⟩, fun _ h => by cases h⟩
  refine Proc.Leads.bind hsave (fun _ hs => hs) fun saved => ?_
  refine Proc.Safe.bind (Proc.Safe.raiseIf (by simp [FindsTwo])) fun _ => ?_
  exact Proc.Safe.bind (Proc.Safe.forEach fun _ _ => keeping_createJobRow) fun _ => safe_jobDict

theorem keeping_createScheduleJob {ctx : Context} {newId : ℕ} {uuid : String} {drawn : ℤ}
    {req : CreateScheduleJob} :
    Keeping (ScheduleJobController.createScheduleJob ctx newId uuid drawn req) :=
  leads_createScheduleJob (fun _ hs => hs) fun _ => leads_createJob

theorem leads_updateJob {old : ScheduleJob} {days : List String} {req : UpdateScheduleJob} :
    (ScheduleJobModel.update old days req).Leads
      (fun s => Both Partitioned s ∧ s.pending.getScheduleJob old.id = some old)
      (Both Partitioned) FindsTwo := by
  refine Proc.Leads.bind (Q := Both Partitioned) ?_ (fun _ hs => hs) fun _ => safe_jobDict
  intro s r t hrun hs
  cases hrun
  exact ⟨⟨hs.1.2.replaceScheduleJob hs.2 rfl, hs.1.2.replaceScheduleJob hs.2 rfl⟩,
    fun _ h => by cases h⟩

theorem keeping_deleteJob {id : ℕ} : Keeping (ScheduleJobModel.delete id) := by
  refine Proc.Safe.bind (safe_execute fun d hd => ⟨hd.volumes, hd.jobs⟩) fun _ => ?_
  refine Proc.Safe.bind (safe_save fun d hd _ => hd.deleteJob id) fun deleted => ?_
  exact Proc.Safe.bind (Proc.Safe.raiseIf (by simp [FindsTwo])) fun _ => Proc.Safe.pure

end ScheduleJobs

theorem keeping_handler {req : Request} : Keeping req.handler := by
  cases req with
  | createVolumeGroup ctx newId ops req => exact keeping_createVolumeGroup
  | updateVolumeGroup ctx id req => exact keeping_updateVolumeGroup
  | deleteVolumeGroup ctx id => exact safe_deleteVolumeGroup keeping_deleteGroup
  | createScheduleJob ctx newId uuid drawn req => exact keeping_createScheduleJob
  | updateScheduleJob ctx id req => exact safe_updateScheduleJob fun _ _ => leads_updateJob
  | deleteScheduleJob ctx id => exact safe_deleteScheduleJob keeping_deleteJob

theorem partitioned_of_step {s t : Session} {e : Event} (hs : Both Partitioned s)
    (h : step s e = some t) : Both Partitioned t := by
  cases e with
  | serve req =>
    obtain ⟨-, r, hrun⟩ := step_serve.mp h
    exact keeping_handler.keeps hrun hs
  | newSession =>
    cases h
    exact ⟨hs.1, hs.1⟩

section Runs
variable {users : List User} {vms : List VM} {nodes : List Node} {storages : List Storage}
  {versions : List Version} {s : Session}

theorem partitioned_of_reaches (h : Reaches step ⟨.start users vms nodes storages versions,
    .start users vms nodes storages versions⟩ s) : Both Partitioned s :=
  Steps.invariant h ⟨Partitioned.start, Partitioned.start⟩ fun hs _ hstep =>
    partitioned_of_step hs hstep

/-- A lookup finds two rows. -/
def FindsMany (e : Error) : Prop := ∃ model, e = .multipleResultsFound model

theorem safe_createGroup {newId : ℕ} {userId : Option ℕ} {req : CreateVolumeGroup} :
    (VolumeGroupModel.create newId userId req).Safe (Both fun _ => True) FindsMany := by
  have hrow {volume : VolumeArg} :
      (VolumeGroupModel.createRow true newId volume).Safe (Both fun _ => True) FindsMany := by
    refine Proc.Safe.bind (Proc.Safe.ofOption (by simp [FindsMany])) fun id => ?_
    refine Proc.Safe.bind (Proc.Safe.ofOption (by simp [FindsMany])) fun vmId => ?_
    exact Proc.Safe.bind (safe_save fun _ _ _ => trivial) fun _ => Proc.Safe.pure
  refine Proc.Safe.bind (Proc.Safe.ofOption (by simp [FindsMany])) fun userId => ?_
  refine Proc.Safe.bind (safe_save fun _ _ _ => trivial) fun saved => ?_
  refine Proc.Safe.bind (Proc.Safe.raiseIf (by simp [FindsMany])) fun _ => ?_
  refine Proc.Safe.bind (Proc.Safe.forEach fun _ _ => hrow) fun _ => ?_
  exact Proc.Safe.bind safe_query fun _ => Proc.Safe.pure

theorem createVolumeGroup_findsOne {ctx : Context} {newId : ℕ} {ops : Option Ops}
    {req : CreateVolumeGroup} :
    (VMController.createVolumeGroup ctx newId ops req).Leads
      (fun s => Partitioned s.pending ∧ DistinctVms s.pending) (Both fun _ => True) FindsMany := by
  cases ops with
  | none => exact Proc.Safe.pure.leads (I := Both fun _ => True) fun _ _ => ⟨trivial, trivial⟩
  | some ops =>
    have hcheck {userId : Option ℕ} :
        (Proc.forEach (VMController.checkVolume ops userId) req.volumes).Safe
          (fun s => Partitioned s.pending ∧ DistinctVms s.pending) FindsMany :=
      Proc.Safe.forEach fun _ _ =>
        safe_checkVolume (fun _ h => h) (fun _ hs => hs.1) fun _ _ hs => hs.2
    exact Proc.Leads.bind (hcheck.leads fun _ hs => hs) (fun _ _ => ⟨trivial, trivial⟩) fun _ =>
      safe_createGroup.leads fun _ _ => ⟨trivial, trivial⟩

/-- Groups partition volumes and have one job at most, in what is committed and in what the session
sees. The handlers that look up the group of a volume or the job of a group find one at most, and
listing and creating groups find one of everything unless a user has two VMs with one reference. -/
theorem groups_partition_volumes (h : Reaches step ⟨.start users vms nodes storages versions,
    .start users vms nodes storages versions⟩ s) :
    (∀ d ∈ [s.committed, s.pending],
      (d.volumeBackupGroups.map VolumeBackupGroup.volumeId).Nodup ∧
        ∀ groupId, (d.jobsOfGroup groupId).length ≤ 1) ∧
    (∀ model ∈ [Model.volumeBackupGroup, Model.scheduleJob], ∀ t (req : Request),
      ¬ req.handler.Raises s (.multipleResultsFound model) t) ∧
    ∀ model t,
      (∀ ops page, ¬ (VMController.listVms ops page).Raises s (.multipleResultsFound model) t) ∧
      (∀ page, ¬ (VMController.listVolumeGroups page).Raises s (.multipleResultsFound model) t) ∧
      (DistinctVms s.pending → ∀ ctx newId ops req,
        ¬ (VMController.createVolumeGroup ctx newId ops req).Raises s
          (.multipleResultsFound model) t) := by
  have hs := partitioned_of_reaches h
  have hpending : ∀ s : Session, Both Partitioned s → Partitioned s.pending := fun _ hs => hs.2
  refine ⟨?_, ?_, ?_⟩
  · intro d hd
    have hp : Partitioned d := by
      cases List.mem_cons.mp hd with
      | inl hd => exact hd ▸ hs.1
      | inr hd => exact List.mem_singleton.mp hd ▸ hs.2
    exact ⟨hp.volumes, hp.length_jobsOfGroup⟩
  · intro model hmodel t req
    have hbad : FindsTwo (.multipleResultsFound model) := by
      cases List.mem_cons.mp hmodel with
      | inl hm => exact .inl (congrArg _ hm)
      | inr hm => exact .inr (congrArg _ (List.mem_singleton.mp hm))
    exact keeping_handler.not_raises hs hbad
  · intro model t
    refine ⟨fun ops page => ?_, fun page => ?_, fun hdistinct ctx newId ops req hraises => ?_⟩
    · have hsafe : (VMController.listVms ops page).Safe (Both Partitioned) FindsMany :=
        safe_listVms hpending
      exact hsafe.not_raises hs ⟨model, rfl⟩
    · have hsafe : (VMController.listVolumeGroups page).Safe (Both Partitioned) FindsMany :=
        safe_listVolumeGroups hpending
      exact hsafe.not_raises hs ⟨model, rfl⟩
    exact (createVolumeGroup_findsOne hraises ⟨hs.2, hdistinct⟩).2 _ rfl ⟨model, rfl⟩

/-- A tenant's group, made of one volume that the request names twice, and its job. -/
def exampleStart : Db :=
  .start [⟨1, "alice"⟩] [⟨1, "web", some "server-1", 1⟩] [] [⟨1, "alice", 1, 1⟩] []

def exampleRequests : List Event :=
  let ctx : Context := ⟨⟨1, "alice"⟩, false⟩
  let ops : Ops := ⟨fun _ => some ⟨["server-1"], 1⟩, fun _ => some ["vol-1"]⟩
  let volume : VolumeArg := ⟨some "vol-1", some 1, none⟩
  [.serve (.createVolumeGroup ctx 1 (some ops) ⟨"group", none, [volume, volume], none⟩),
    .serve (.createScheduleJob ctx 1 "uuid" 0 ⟨1, none, "BACKUP", ["mon"], 60, none, 7, none⟩),
    .serve (.updateVolumeGroup ctx 1 ⟨none, some "web server", [volume, volume]⟩)]

theorem groups_partition_volumes_example :
    ∃ s, Reaches step ⟨exampleStart, exampleStart⟩ s ∧
      s.committed.volumeBackupGroups = [⟨1, "vol-1", none, 1⟩] ∧
      (s.committed.jobsOfGroup 1).length = 1 ∧
      (∀ d ∈ [s.committed, s.pending], ∀ groupId, (d.jobsOfGroup groupId).length ≤ 1) ∧
      ∀ model t ctx newId ops req,
        ¬ (VMController.createVolumeGroup ctx newId ops req).Raises s
          (.multipleResultsFound model) t := by
  have hrun : (run step ⟨exampleStart, exampleStart⟩ exampleRequests).any (fun s =>
      s.committed.volumeBackupGroups = [⟨1, "vol-1", none, 1⟩] ∧
        (s.committed.jobsOfGroup 1).length = 1 ∧ DistinctVms s.pending) = true := by
    decide +kernel
  obtain ⟨s, hs, hf⟩ := exists_reaches_of_run hrun
  obtain ⟨hrows, hjobs, hdistinct⟩ := of_decide_eq_true hf
  obtain ⟨hpartition, -, hmany⟩ := groups_partition_volumes hs
  exact ⟨s, hs, hrows, hjobs, fun d hd => (hpartition d hd).2,
    fun model t => (hmany model t).2.2 hdistinct⟩

/-- The same tenant with two VMs of one reference. -/
def twoVms : Db :=
  .start [⟨1, "alice"⟩] [⟨1, "web", some "server-1", 1⟩, ⟨2, "web", some "server-1", 1⟩] []
    [⟨1, "alice", 1, 1⟩] []

theorem createVolumeGroup_findsTwo : ∃ s t, Reaches step ⟨twoVms, twoVms⟩ s ∧
    (VMController.createVolumeGroup ⟨⟨1, "alice"⟩, false⟩ 1
      (some ⟨fun _ => some ⟨["server-1"], 1⟩, fun _ => some ["vol-1"]⟩)
      ⟨"group", none, [⟨some "vol-1", some 1, none⟩], none⟩).Raises s
        (.multipleResultsFound .vm) t :=
  ⟨⟨twoVms, twoVms⟩, ⟨twoVms, twoVms⟩, .refl, rfl⟩

end Runs

end Benji.Services

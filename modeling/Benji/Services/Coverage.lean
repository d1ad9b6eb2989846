import Benji.Services.Partition

/-! A schedule job has rows for the volumes of its group, as long as no update of a group with a
job changes its volumes. -/
namespace Benji.Services
open Lib

namespace Db

def GroupVolume (d : Db) (groupId : ℕ) (volumeId : String) : Prop :=
  ∃ r ∈ d.volumeBackupGroups, r.groupId = groupId ∧ r.volumeId = volumeId

def JobVolume (d : Db) (sjId : ℕ) (volumeId : String) : Prop :=
  ∃ r ∈ d.volumeScheduleJobs, r.sjId = sjId ∧ r.volumeId = volumeId

instance (d : Db) (groupId : ℕ) (volumeId : String) : Decidable (d.GroupVolume groupId volumeId) :=
  inferInstanceAs (Decidable (∃ r ∈ d.volumeBackupGroups, _))

end Db

/-- Every job has rows for exactly the volumes of its group. -/
def Covered (d : Db) : Prop :=
  ∀ job ∈ d.scheduleJobs, ∀ volumeId,
    d.JobVolume job.id volumeId ↔ d.GroupVolume job.groupId volumeId

/-- With what the primary and the foreign keys of the tables give. -/
structure Linked (d : Db) : Prop where
  covered : Covered d
  partitioned : Partitioned d
  jobIds : (d.scheduleJobs.map ScheduleJob.id).Nodup
  jobGroups : ∀ j ∈ d.scheduleJobs, ∃ g ∈ d.volumeGroups, g.id = j.groupId
  rowJobs : ∀ r ∈ d.volumeScheduleJobs, ∃ j ∈ d.scheduleJobs, j.id = r.sjId
  rowVms : ∀ r ∈ d.volumeBackupGroups, ∃ v ∈ d.vms, v.id = r.vmId

section Steps
variable {d : Db}

theorem mem_jobsOfGroup {groupId : ℕ} {job : ScheduleJob} :
    job ∈ d.jobsOfGroup groupId ↔ job ∈ d.scheduleJobs ∧ job.groupId = groupId := by
  simp [Db.jobsOfGroup]

theorem jobsOfGroup_eq_nil {groupId : ℕ} :
    d.jobsOfGroup groupId = [] ↔ ∀ job ∈ d.scheduleJobs, job.groupId ≠ groupId := by
  simp [Db.jobsOfGroup, List.filter_eq_nil_iff]

theorem groupVolume_put {row : VolumeBackupGroup} {groupId : ℕ} {volumeId : String} :
    (d.putVolumeBackupGroup row).GroupVolume groupId volumeId ↔
      d.GroupVolume groupId volumeId ∨ groupId = row.groupId ∧ volumeId = row.volumeId := by
  simp only [Db.GroupVolume, Db.putVolumeBackupGroup, mem_mergeRow]
  constructor
  · intro ⟨r, hr, hg, hv⟩
    cases hr with
    | inl hr => exact .inr ⟨hr ▸ hg.symm, hr ▸ hv.symm⟩
    | inr hr => exact .inl ⟨r, hr.1, hg, hv⟩
  · intro h
    cases h with
    | inl h =>
      obtain ⟨r, hr, hg, hv⟩ := h
      by_cases hkey : (r.groupId, r.volumeId) = (row.groupId, row.volumeId)
      · obtain ⟨hkg, hkv⟩ := Prod.ext_iff.mp hkey
        exact ⟨row, .inl rfl, hkg.symm.trans hg, hkv.symm.trans hv⟩
      · exact ⟨r, .inr ⟨hr, hkey⟩, hg, hv⟩
    | inr h => exact ⟨row, .inl rfl, h.1.symm, h.2.symm⟩

theorem jobVolume_put {row : VolumeScheduleJob} {sjId : ℕ} {volumeId : String} :
    (d.putVolumeScheduleJob row).JobVolume sjId volumeId ↔
      d.JobVolume sjId volumeId ∨ sjId = row.sjId ∧ volumeId = row.volumeId := by
  simp only [Db.JobVolume, Db.putVolumeScheduleJob, mem_mergeRow]
  constructor
  · intro ⟨r, hr, hs, hv⟩
    cases hr with
    | inl hr => exact .inr ⟨hr ▸ hs.symm, hr ▸ hv.symm⟩
    | inr hr => exact .inl ⟨r, hr.1, hs, hv⟩
  · intro h
    cases h with
    | inl h =>
      obtain ⟨r, hr, hs, hv⟩ := h
      by_cases hkey : (r.sjId, r.volumeId) = (row.sjId, row.volumeId)
      · obtain ⟨hks, hkv⟩ := Prod.ext_iff.mp hkey
        exact ⟨row, .inl rfl, hks.symm.trans hs, hkv.symm.trans hv⟩
      · exact ⟨r, .inr ⟨hr, hkey⟩, hs, hv⟩
    | inr h => exact ⟨row, .inl rfl, h.1.symm, h.2.symm⟩

/-- What an accepted row of a group refers to. -/
theorem accepts_iff {row : VolumeBackupGroup} : d.acceptsVolumeBackupGroup row = true ↔
    (∃ g ∈ d.volumeGroups, g.id = row.groupId) ∧ (∃ v ∈ d.vms, v.id = row.vmId) ∧
      ∀ r ∈ d.volumeBackupGroups, r.volumeId = row.volumeId → r.groupId = row.groupId := by
  simp only [Db.acceptsVolumeBackupGroup, Bool.and_eq_true, List.any_eq_true, List.all_eq_true,
    decide_eq_true_eq, and_assoc]

theorem acceptsJobRow_iff {row : VolumeScheduleJob} : d.acceptsVolumeScheduleJob row = true ↔
    (∃ j ∈ d.scheduleJobs, j.id = row.sjId) ∧ (∃ v ∈ d.vms, v.id = row.vmId) ∧
      ∀ r ∈ d.volumeScheduleJobs, r.volumeId = row.volumeId → r.sjId = row.sjId := by
  simp only [Db.acceptsVolumeScheduleJob, Bool.and_eq_true, List.any_eq_true, List.all_eq_true,
    decide_eq_true_eq, and_assoc]

namespace Linked

theorem start {users : List User} {vms : List VM} {nodes : List Node} {storages : List Storage}
    {versions : List Version} : Linked (.start users vms nodes storages versions) where
  covered _ hj := absurd hj List.not_mem_nil
  partitioned := .start
  jobIds := List.nodup_nil
  jobGroups _ hj := absurd hj List.not_mem_nil
  rowJobs _ hr := absurd hr List.not_mem_nil
  rowVms _ hr := absurd hr List.not_mem_nil

theorem putVolumeGroup (h : Linked d) (group : VolumeGroup) : Linked (d.putVolumeGroup group) where
  covered := h.covered
  partitioned := ⟨h.partitioned.volumes, h.partitioned.jobs⟩
  jobIds := h.jobIds
  jobGroups j hj := by
    obtain ⟨g, hg, hid⟩ := h.jobGroups j hj
    by_cases hkey : g.id = group.id
    · exact ⟨group, mem_mergeRow.mpr (.inl rfl), hkey.symm.trans hid⟩
    · exact ⟨g, mem_mergeRow.mpr (.inr ⟨hg, hkey⟩), hid⟩
  rowJobs := h.rowJobs
  rowVms := h.rowVms

/-- A row of a group that has no job. -/
theorem putVolumeBackupGroup {row : VolumeBackupGroup} (h : Linked d)
    (hok : d.acceptsVolumeBackupGroup row = true) (hnone : d.jobsOfGroup row.groupId = []) :
    Linked (d.putVolumeBackupGroup row) where
  covered job hj volumeId := by
    have hne : job.groupId ≠ row.groupId := jobsOfGroup_eq_nil.mp hnone job hj
    rw [groupVolume_put]
    constructor
    · intro hv
      exact .inl ((h.covered job hj volumeId).mp hv)
    · intro hv
      cases hv with
      | inl hv => exact (h.covered job hj volumeId).mpr hv
      | inr hv => exact absurd hv.1 hne
  partitioned := h.partitioned.putVolumeBackupGroup hok
  jobIds := h.jobIds
  jobGroups := h.jobGroups
  rowJobs := h.rowJobs
  rowVms r hr := by
    cases mem_mergeRow.mp hr with
    | inl hr => exact hr ▸ (accepts_iff.mp hok).2.1
    | inr hr => exact h.rowVms r hr.1

/-- The rows of a group that has no job. -/
theorem deleteGroupRows {groupId : ℕ} (h : Linked d) (hnone : d.jobsOfGroup groupId = []) :
    Linked (d.deleteGroupRows groupId) where
  covered job hj volumeId := by
    have hne : job.groupId ≠ groupId := jobsOfGroup_eq_nil.mp hnone job hj
    refine (h.covered job hj volumeId).trans ⟨?_, ?_⟩
    · intro ⟨r, hr, hg, hv⟩
      refine ⟨r, List.mem_filter.mpr ⟨hr, ?_⟩, hg, hv⟩
      exact decide_eq_true (hg ▸ hne)
    · intro ⟨r, hr, hg, hv⟩
      exact ⟨r, (List.mem_filter.mp hr).1, hg, hv⟩
  partitioned := h.partitioned.deleteGroupRows groupId
  jobIds := h.jobIds
  jobGroups := h.jobGroups
  rowJobs := h.rowJobs
  rowVms r hr := h.rowVms r (List.mem_filter.mp hr).1

/-- A job and its rows. -/
theorem deleteJob (h : Linked d) (id : ℕ) : Linked ((d.deleteJobRows id).deleteJob id) where
  covered job hj volumeId := by
    obtain ⟨hmem, hne⟩ := List.mem_filter.mp hj
    refine Iff.trans ⟨?_, ?_⟩ (h.covered job hmem volumeId)
    · intro ⟨r, hr, hs, hv⟩
      exact ⟨r, (List.mem_filter.mp hr).1, hs, hv⟩
    · intro ⟨r, hr, hs, hv⟩
      refine ⟨r, List.mem_filter.mpr ⟨hr, ?_⟩, hs, hv⟩
      exact decide_eq_true (hs ▸ of_decide_eq_true hne)
  partitioned := ⟨h.partitioned.volumes, (h.partitioned.deleteJob id).jobs⟩
  jobIds := h.jobIds.sublist (List.filter_sublist.map _)
  jobGroups j hj := h.jobGroups j (List.mem_filter.mp hj).1
  rowJobs r hr := by
    obtain ⟨hmem, hne⟩ := List.mem_filter.mp hr
    obtain ⟨j, hj, hid⟩ := h.rowJobs r hmem
    refine ⟨j, List.mem_filter.mpr ⟨hj, ?_⟩, hid⟩
    exact decide_eq_true (hid ▸ of_decide_eq_true hne)
  rowVms := h.rowVms

/-- A group without rows and without a job. -/
theorem deleteGroup {groupId : ℕ} (h : Linked d) (hnone : d.jobsOfGroup groupId = []) :
    Linked (d.deleteGroup groupId) where
  covered := h.covered
  partitioned := ⟨h.partitioned.volumes, h.partitioned.jobs⟩
  jobIds := h.jobIds
  jobGroups j hj := by
    obtain ⟨g, hg, hid⟩ := h.jobGroups j hj
    have hne : g.id ≠ groupId := hid ▸ jobsOfGroup_eq_nil.mp hnone j hj
    exact ⟨g, List.mem_filter.mpr ⟨hg, decide_eq_true hne⟩, hid⟩
  rowJobs := h.rowJobs
  rowVms := h.rowVms

/-- A job that stays in its group. -/
theorem replaceScheduleJob {old job : ScheduleJob} (h : Linked d)
    (hold : d.getScheduleJob job.id = some old) (hgroup : job.groupId = old.groupId) :
    Linked (d.putScheduleJob job) := by
  have hmem : old ∈ d.scheduleJobs := List.mem_of_find?_eq_some hold
  have hid : old.id = job.id := of_decide_eq_true (List.find?_some hold :)
  refine ⟨?_, h.partitioned.replaceScheduleJob hold hgroup, ?_, ?_, ?_, h.rowVms⟩
  · intro j hj volumeId
    cases mem_mergeRow.mp hj with
    | inl hj =>
      subst hj
      have hcov := h.covered old hmem volumeId
      rw [hid, ← hgroup] at hcov
      exact hcov
    | inr hj => exact h.covered j hj.1 volumeId
  · exact nodup_map_mergeRow h.jobIds fun j _ hne => hne
  · intro j hj
    cases mem_mergeRow.mp hj with
    | inl hj =>
      subst hj
      rw [hgroup]
      exact h.jobGroups old hmem
    | inr hj => exact h.jobGroups j hj.1
  · intro r hr
    obtain ⟨j, hj, hjid⟩ := h.rowJobs r hr
    by_cases hkey : j.id = job.id
    · exact ⟨job, mem_mergeRow.mpr (.inl rfl), hkey.symm.trans hjid⟩
    · exact ⟨j, mem_mergeRow.mpr (.inr ⟨hj, hkey⟩), hjid⟩

end Linked
end Steps

/-- However the handler ends, its session is left linked. -/
abbrev Linking {α : Type} (p : Action α) : Prop := p.Safe (Both Linked) FindsTwo

section DeleteGroup
variable {d : Db} {id : ℕ}

/-- Without the rows of the job of a group. -/
def Db.withoutJobRows (d : Db) (id : ℕ) : Db :=
  match (d.jobsOfGroup id).head? with
  | some job => d.deleteJobRows job.id
  | none => d

theorem returns_deleteRowsOf {s : Session} :
    (VolumeGroupModel.deleteRowsOf (s.pending.jobsOfGroup id).head?).Returns s ()
      ⟨s.committed, s.pending.withoutJobRows id⟩ := by
  unfold Db.withoutJobRows
  cases (s.pending.jobsOfGroup id).head? with
  | none => exact Proc.returns_pure.mpr ⟨rfl, rfl⟩
  | some job => exact returns_execute

/-- A group with a job has only that one. -/
theorem jobsOfGroup_cases (h : Linked d) (id : ℕ) :
    d.jobsOfGroup id = [] ∨ ∃ job, d.jobsOfGroup id = [job] ∧
      ∀ j ∈ d.scheduleJobs, j.groupId = id ↔ j.id = job.id := by
  match hjobs : d.jobsOfGroup id with
  | [] => exact .inl rfl
  | [job] =>
    refine .inr ⟨job, rfl, ?_⟩
    intro j hj
    have hjob : job ∈ d.scheduleJobs ∧ job.groupId = id :=
      mem_jobsOfGroup.mp (hjobs ▸ List.mem_singleton_self job)
    constructor
    · intro hg
      have hmem : j ∈ d.jobsOfGroup id := mem_jobsOfGroup.mpr ⟨hj, hg⟩
      rw [hjobs] at hmem
      rw [List.mem_singleton.mp hmem]
    · intro hid
      rw [List.inj_on_of_nodup_map h.jobIds hj hjob.1 hid]
      exact hjob.2
  | a :: b :: rest =>
    have hlen := h.partitioned.length_jobsOfGroup id
    rw [hjobs] at hlen
    simp at hlen

theorem jobsUnused_withoutJobRows (h : Linked d) :
    Db.jobsUnused id (d.withoutJobRows id) = true := by
  simp only [Db.jobsUnused, List.all_eq_true, decide_eq_true_eq]
  intro j hj hg r hr
  unfold Db.withoutJobRows at hj hr
  cases jobsOfGroup_cases h id with
  | inl hnone =>
    rw [hnone] at hj
    exact absurd hg (jobsOfGroup_eq_nil.mp hnone j hj)
  | inr hone =>
    obtain ⟨job, hjobs, hiff⟩ := hone
    rw [hjobs] at hj hr
    have hid : j.id = job.id := (hiff j hj).mp hg
    rw [hid]
    exact of_decide_eq_true (List.mem_filter.mp hr).2

theorem Linked.deleteJobsOfGroup (h : Linked d) :
    Linked ((d.withoutJobRows id).deleteJobsOfGroup id) := by
  unfold Db.withoutJobRows
  cases jobsOfGroup_cases h id with
  | inl hnone =>
    rw [hnone]
    have hsame : d.scheduleJobs.filter (fun j => j.groupId ≠ id) = d.scheduleJobs :=
      List.filter_eq_self.mpr fun j hj => decide_eq_true (jobsOfGroup_eq_nil.mp hnone j hj)
    have heq : d.deleteJobsOfGroup id = d := by
      rw [Db.deleteJobsOfGroup, hsame]
    show Linked (d.deleteJobsOfGroup id)
    rw [heq]
    exact h
  | inr hone =>
    obtain ⟨job, hjobs, hiff⟩ := hone
    rw [hjobs]
    have hsame : d.scheduleJobs.filter (fun j => j.groupId ≠ id) =
        d.scheduleJobs.filter fun j => j.id ≠ job.id := by
      apply List.filter_congr
      intro j hj
      rw [decide_eq_decide, not_iff_not]
      exact hiff j hj
    have heq : (d.deleteJobRows job.id).deleteJobsOfGroup id =
        (d.deleteJobRows job.id).deleteJob job.id := by
      simp only [Db.deleteJobsOfGroup, Db.deleteJob, Db.deleteJobRows, hsame]
    show Linked ((d.deleteJobRows job.id).deleteJobsOfGroup id)
    rw [heq]
    exact h.deleteJob job.id

theorem jobsOfGroup_deleteJobsOfGroup : (d.deleteJobsOfGroup id).jobsOfGroup id = [] := by
  apply jobsOfGroup_eq_nil.mpr
  intro j hj
  exact of_decide_eq_true (List.mem_filter.mp hj).2

/-- All rows of the group and of its job are gone with it. -/
def Db.withoutGroup (d : Db) (id : ℕ) : Db :=
  (((d.withoutJobRows id).deleteJobsOfGroup id).deleteGroupRows id).deleteGroup id

theorem Linked.withoutGroup (h : Linked d) : Linked (d.withoutGroup id) :=
  (h.deleteJobsOfGroup.deleteGroupRows jobsOfGroup_deleteJobsOfGroup).deleteGroup
    jobsOfGroup_deleteJobsOfGroup

theorem returns_delete {s : Session} {group : VolumeGroup} (h : Linked s.pending)
    (hgroup : s.pending.getVolumeGroup id = some group) :
    (VolumeGroupModel.delete id).Returns s .nothing
      ⟨s.pending.withoutGroup id, s.pending.withoutGroup id⟩ := by
  let e := (s.pending.withoutJobRows id).deleteJobsOfGroup id
  have hnone : e.jobsOfGroup id = [] := jobsOfGroup_deleteJobsOfGroup
  have hunused : Db.groupUnused id (e.deleteGroupRows id) = true := by
    simp only [Db.groupUnused, Bool.and_eq_true, List.all_eq_true, decide_eq_true_eq]
    exact ⟨fun r hr => of_decide_eq_true (List.mem_filter.mp hr).2,
      jobsOfGroup_eq_nil.mp hnone⟩
  have hjob : (lookup .scheduleJob (Db.jobsOfGroup id)).Returns s
      (s.pending.jobsOfGroup id).head? s :=
    returns_lookup (h.partitioned.length_jobsOfGroup id)
  refine Proc.returns_bind.mpr ⟨_, _, returns_query.mpr ⟨rfl, rfl⟩, ?_⟩
  refine Proc.returns_bind.mpr ⟨_, _, Proc.returns_ofOption.mpr ⟨hgroup, rfl⟩, ?_⟩
  refine Proc.returns_bind.mpr ⟨_, _, hjob, ?_⟩
  refine Proc.returns_bind.mpr ⟨_, _, returns_deleteRowsOf, ?_⟩
  refine Proc.returns_bind.mpr ⟨_, _, returns_query.mpr ⟨rfl, rfl⟩, ?_⟩
  refine Proc.returns_bind.mpr ⟨(), _, Proc.returns_raiseIf.mpr ⟨?_, rfl⟩, ?_⟩
  · simp [jobsUnused_withoutJobRows h]
  · refine Proc.returns_bind.mpr ⟨(), _, returns_execute, ?_⟩
    refine Proc.returns_bind.mpr ⟨(), _, returns_execute, ?_⟩
    refine Proc.returns_bind.mpr ⟨true, _, returns_save_true hunused, ?_⟩
    exact Proc.returns_bind.mpr ⟨(), _, Proc.returns_raiseIf.mpr ⟨by simp, rfl⟩,
      Proc.returns_pure.mpr ⟨rfl, rfl⟩⟩

theorem linking_delete : Linking (VolumeGroupModel.delete id) := by
  intro s r t hrun hs
  cases hgroup : s.pending.getVolumeGroup id with
  | none =>
    have hraises : (VolumeGroupModel.delete id).Raises s (.refused 400 "Not found item") s := by
      refine Proc.raises_bind.mpr (.inr ⟨_, _, returns_query.mpr ⟨hgroup, rfl⟩, ?_⟩)
      exact Proc.raises_bind.mpr (.inl (Proc.raises_ofOption.mpr ⟨rfl, rfl, rfl⟩))
    cases Option.some.inj (hrun.symm.trans hraises)
    exact ⟨hs, by simp [FindsTwo]⟩
  | some group =>
    cases Option.some.inj (hrun.symm.trans (returns_delete hs.2 hgroup))
    exact ⟨⟨hs.2.withoutGroup, hs.2.withoutGroup⟩, fun _ h => by cases h⟩

end DeleteGroup

section CreateJob
variable {d : Db} {id : ℕ} {rows : List VolumeBackupGroup}

/-- The rows of a job for rows of its group. -/
def Db.putRows (d : Db) (id : ℕ) (rows : List VolumeBackupGroup) : Db :=
  rows.foldl (fun d r => d.putVolumeScheduleJob ⟨id, r.volumeId, r.volumeName, r.vmId⟩) d

theorem jobVolume_putRows {sjId : ℕ} {volumeId : String} :
    (d.putRows id rows).JobVolume sjId volumeId ↔
      d.JobVolume sjId volumeId ∨ sjId = id ∧ ∃ r ∈ rows, r.volumeId = volumeId := by
  induction rows generalizing d with
  | nil => simp [Db.putRows]
  | cons row rows ih =>
    have hcons : d.putRows id (row :: rows) =
      (d.putVolumeScheduleJob ⟨id, row.volumeId, row.volumeName, row.vmId⟩).putRows id rows := rfl
    rw [hcons, ih, jobVolume_put, List.exists_mem_cons_iff]
    grind

/-- Only the rows of the job are new. -/
theorem putRows_eq : ∃ new, d.putRows id rows = { d with volumeScheduleJobs := new } ∧
    ∀ r ∈ new, r ∈ d.volumeScheduleJobs ∨ r.sjId = id := by
  induction rows generalizing d with
  | nil => exact ⟨d.volumeScheduleJobs, rfl, fun r hr => .inl hr⟩
  | cons row rows ih =>
    obtain ⟨new, heq, hnew⟩ :=
      @ih (d.putVolumeScheduleJob ⟨id, row.volumeId, row.volumeName, row.vmId⟩)
    refine ⟨new, heq, ?_⟩
    intro r hr
    cases hnew r hr with
    | inl hr =>
      cases mem_mergeRow.mp hr with
      | inl hr => exact .inr (congrArg VolumeScheduleJob.sjId hr)
      | inr hr => exact .inl hr.1
    | inr hr => exact .inr hr

/-- Every row can be stored: the job is there, the VMs are, and no other job has the volumes. -/
structure Fits (d : Db) (id : ℕ) (rows : List VolumeBackupGroup) : Prop where
  job : ∃ j ∈ d.scheduleJobs, j.id = id
  vms : ∀ r ∈ rows, ∃ v ∈ d.vms, v.id = r.vmId
  own : ∀ r' ∈ d.volumeScheduleJobs, ∀ r ∈ rows, r'.volumeId = r.volumeId → r'.sjId = id

theorem returns_createRows (h : Fits d id rows) :
    (Proc.forEach (ScheduleJobModel.createRow id) rows).Returns ⟨d, d⟩ ()
      ⟨d.putRows id rows, d.putRows id rows⟩ := by
  induction rows generalizing d with
  | nil => exact Proc.returns_forEach_nil.mpr rfl
  | cons row rows ih =>
    let new : VolumeScheduleJob := ⟨id, row.volumeId, row.volumeName, row.vmId⟩
    have hok : d.acceptsVolumeScheduleJob new = true :=
      acceptsJobRow_iff.mpr ⟨h.job, h.vms row List.mem_cons_self,
        fun r hr hv => h.own r hr row List.mem_cons_self hv⟩
    have hfits : Fits (d.putVolumeScheduleJob new) id rows := by
      refine ⟨h.job, fun r hr => h.vms r (List.mem_cons_of_mem _ hr), ?_⟩
      intro r' hr' r hr hv
      cases mem_mergeRow.mp hr' with
      | inl hr' => exact congrArg VolumeScheduleJob.sjId hr'
      | inr hr' => exact h.own r' hr'.1 r (List.mem_cons_of_mem _ hr) hv
    have hfirst : (ScheduleJobModel.createRow id row).Returns ⟨d, d⟩ ()
        ⟨d.putVolumeScheduleJob new, d.putVolumeScheduleJob new⟩ :=
      Proc.returns_bind.mpr ⟨true, _, returns_save_true hok, Proc.returns_pure.mpr ⟨rfl, rfl⟩⟩
    exact Proc.returns_forEach_cons.mpr ⟨_, hfirst, ih hfits⟩

/-- A new job with the rows of its group. -/
theorem Linked.createJob {job : ScheduleJob} (h : Linked d)
    (hok : d.acceptsScheduleJob job = true) (hnone : d.jobsOfGroup job.groupId = [])
    (hnew : ∀ j ∈ d.scheduleJobs, j.id ≠ job.id) :
    Linked ((d.putScheduleJob job).putRows job.id (d.groupRows job.groupId)) := by
  let e := d.putScheduleJob job
  have hvolume {sjId : ℕ} {volumeId : String} :
      (e.putRows job.id (d.groupRows job.groupId)).JobVolume sjId volumeId ↔
        d.JobVolume sjId volumeId ∨ sjId = job.id ∧ d.GroupVolume job.groupId volumeId := by
    rw [jobVolume_putRows]
    have hrows : (∃ r ∈ d.groupRows job.groupId, r.volumeId = volumeId) ↔
        d.GroupVolume job.groupId volumeId := by
      simp [Db.groupRows, Db.GroupVolume, and_assoc]
    rw [hrows]
    rfl
  have hjobs : ∀ j ∈ e.scheduleJobs, j = job ∨ j ∈ d.scheduleJobs := fun j hj =>
    (mem_mergeRow.mp hj).imp_right And.left
  have hkept : ∀ j ∈ d.scheduleJobs, j ∈ e.scheduleJobs := fun j hj =>
    mem_mergeRow.mpr (.inr ⟨hj, hnew j hj⟩)
  have hpart : Partitioned e := h.partitioned.putScheduleJob hnone
  have hids : (e.scheduleJobs.map ScheduleJob.id).Nodup :=
    nodup_map_mergeRow h.jobIds fun _ _ hne => hne
  have hgroup : ∃ g ∈ d.volumeGroups, g.id = job.groupId := by
    simp only [Db.acceptsScheduleJob, Bool.and_eq_true, List.any_eq_true, decide_eq_true_eq] at hok
    exact hok.1
  have hcovered : Covered (e.putRows job.id (d.groupRows job.groupId)) := by
    obtain ⟨new, heq, -⟩ := @putRows_eq e job.id (d.groupRows job.groupId)
    intro j hj volumeId
    have hj' : j ∈ e.scheduleJobs := by
      rw [heq] at hj
      exact hj
    have hgv : (e.putRows job.id (d.groupRows job.groupId)).GroupVolume j.groupId volumeId ↔
        d.GroupVolume j.groupId volumeId := by
      rw [heq]
      exact Iff.rfl
    rw [hgv, hvolume]
    cases hjobs j hj' with
    | inl hj =>
      have hold : ¬ d.JobVolume job.id volumeId := by
        intro ⟨r, hr, hs, _⟩
        obtain ⟨k, hk, hid⟩ := h.rowJobs r hr
        exact hnew k hk (hid.trans hs)
      simp [hj, hold]
    | inr hj => simp [h.covered j hj volumeId, hnew j hj]
  obtain ⟨new, heq, hnewRows⟩ := @putRows_eq e job.id (d.groupRows job.groupId)
  rw [heq] at hcovered ⊢
  refine ⟨hcovered, ⟨hpart.volumes, hpart.jobs⟩, hids, ?_, ?_, h.rowVms⟩
  · intro j hj
    cases hjobs j hj with
    | inl hj => exact hj ▸ hgroup
    | inr hj => exact h.jobGroups j hj
  · intro r hr
    cases hnewRows r hr with
    | inl hr =>
      obtain ⟨j, hj, hid⟩ := h.rowJobs r hr
      exact ⟨j, hkept j hj, hid⟩
    | inr hr => exact ⟨job, mem_mergeRow.mpr (.inl rfl), hr.symm⟩

end CreateJob

section ScheduleJobs

/-- The new job's id is not taken. -/
def FreeId (id : ℕ) (s : Session) : Prop := ∀ j ∈ s.pending.scheduleJobs, j.id ≠ id

theorem linked_createJob {job : ScheduleJob} :
    (ScheduleJobModel.create job).Leads
      (fun s => (Both Linked s ∧ FreeId job.id s) ∧ NoJob job.groupId s)
      (Both Linked) FindsTwo := by
  refine leads_query_bind fun rows => ?_
  refine Proc.Leads.raiseIf_bind (by simp [FindsTwo]) (fun _ hs => hs.1.1.1) fun _ => ?_
  intro s r t hrun hs
  obtain ⟨⟨⟨hlinked, hnew⟩, hnone⟩, hrows⟩ := hs
  cases hok : s.pending.acceptsScheduleJob job with
  | false =>
    rw [(returns_save_false hok).bind_eq] at hrun
    have hraises : (Proc.raiseIf (false = false) (.refused 400 "Failed to create schedule job") :
        Action Unit).Raises ⟨s.committed, s.committed⟩
        (.refused 400 "Failed to create schedule job") ⟨s.committed, s.committed⟩ :=
      Proc.raises_raiseIf.mpr ⟨rfl, rfl, rfl⟩
    cases Option.some.inj (hrun.symm.trans (Proc.raises_bind.mpr (.inl hraises)))
    exact ⟨⟨hlinked.1, hlinked.1⟩, by simp [FindsTwo]⟩
  | true =>
    let e := s.pending.putScheduleJob job
    have hfinal : Linked (e.putRows job.id rows) :=
      hrows ▸ hlinked.2.createJob hok hnone hnew
    have hfits : Fits e job.id rows := by
      refine ⟨⟨job, mem_mergeRow.mpr (.inl rfl), rfl⟩, ?_, ?_⟩
      · intro r hr
        rw [← hrows] at hr
        exact hlinked.2.rowVms r (List.mem_filter.mp hr).1
      · -- a row of another job has its volume in that job's group, and no volume is in two
        intro r' hr' r hr hv
        rw [← hrows] at hr
        obtain ⟨hmem, hgroup⟩ := List.mem_filter.mp hr
        obtain ⟨j, hj, hid⟩ := hlinked.2.rowJobs r' hr'
        obtain ⟨r'', hr'', hg, hv'⟩ :=
          (hlinked.2.covered j hj r'.volumeId).mp ⟨r', hr', hid.symm, rfl⟩
        have heq : r'' = r :=
          List.inj_on_of_nodup_map hlinked.2.partitioned.volumes hr'' hmem (hv'.trans hv)
        have hsame : j.groupId = job.groupId :=
          hg.symm.trans (heq ▸ of_decide_eq_true hgroup)
        exact absurd hsame (jobsOfGroup_eq_nil.mp hnone j hj)
    rw [(returns_save_true hok).bind_eq] at hrun
    have hreturns : (Proc.raiseIf (true = false) (.refused 400 "Failed to create schedule job") :
        Action Unit).Returns ⟨e, e⟩ () ⟨e, e⟩ := Proc.returns_raiseIf.mpr ⟨by simp, rfl⟩
    rw [hreturns.bind_eq, (returns_createRows hfits).bind_eq] at hrun
    exact safe_jobDict hrun ⟨hfinal, hfinal⟩

theorem returns_deleteJob {id : ℕ} {s : Session} : (ScheduleJobModel.delete id).Returns s .nothing
    ⟨(s.pending.deleteJobRows id).deleteJob id, (s.pending.deleteJobRows id).deleteJob id⟩ := by
  have hunused : Db.jobUnused id (s.pending.deleteJobRows id) = true := by
    simp only [Db.jobUnused, List.all_eq_true]
    intro r hr
    exact (List.mem_filter.mp hr).2
  refine Proc.returns_bind.mpr ⟨(), _, returns_execute, ?_⟩
  refine Proc.returns_bind.mpr ⟨true, _, returns_save_true hunused, ?_⟩
  exact Proc.returns_bind.mpr ⟨(), _, Proc.returns_raiseIf.mpr ⟨by simp, rfl⟩,
    Proc.returns_pure.mpr ⟨rfl, rfl⟩⟩

theorem linking_deleteJob {id : ℕ} : Linking (ScheduleJobModel.delete id) := by
  intro s r t hrun hs
  cases Option.some.inj (hrun.symm.trans returns_deleteJob)
  exact ⟨⟨hs.2.deleteJob id, hs.2.deleteJob id⟩, fun _ h => by cases h⟩

theorem linked_updateJob {old : ScheduleJob} {days : List String} {req : UpdateScheduleJob} :
    (ScheduleJobModel.update old days req).Leads
      (fun s => Both Linked s ∧ s.pending.getScheduleJob old.id = some old)
      (Both Linked) FindsTwo := by
  refine Proc.Leads.bind (Q := Both Linked) ?_ (fun _ hs => hs) fun _ => safe_jobDict
  intro s r t hrun hs
  cases hrun
  exact ⟨⟨hs.1.2.replaceScheduleJob hs.2 rfl, hs.1.2.replaceScheduleJob hs.2 rfl⟩,
    fun _ h => by cases h⟩

end ScheduleJobs

/-! ### Rows of a group -/

def VolumeArg.complete (v : VolumeArg) : Bool := v.id.isSome && v.vmId.isSome

namespace Db

/-- A volume that the group can have: of a VM that there is, and in no other group. -/
def storable (d : Db) (groupId : ℕ) (v : VolumeArg) : Bool :=
  (v.vmId.any fun vmId => d.vms.any fun vm => vm.id = vmId) &&
    v.id.any fun id => d.volumeBackupGroups.all fun r => r.volumeId = id → r.groupId = groupId

/-- The volumes of a request that are stored, up to the first one that lacks a key. -/
def stored (d : Db) (groupId : ℕ) : List VolumeArg → List String
  | [] => []
  | v :: vs =>
    if v.complete then (if d.storable groupId v then v.id.toList else []) ++ stored d groupId vs
    else []

end Db

section Rows
variable {d d' e : Db} {g : ℕ} {v : VolumeArg} {vs : List VolumeArg} {named : Bool}

/-- Only rows of the group differ. -/
structure SameOthers (g : ℕ) (d d' : Db) : Prop where
  frame : ∃ rows, d' = { d with volumeBackupGroups := rows }
  rows : ∀ r : VolumeBackupGroup, r.groupId ≠ g →
    (r ∈ d'.volumeBackupGroups ↔ r ∈ d.volumeBackupGroups)

namespace SameOthers

theorem refl : SameOthers g d d := ⟨⟨_, rfl⟩, fun _ _ => Iff.rfl⟩

theorem trans (h : SameOthers g d d') (k : SameOthers g d' e) : SameOthers g d e := by
  obtain ⟨rows, rfl⟩ := h.frame
  obtain ⟨rows', rfl⟩ := k.frame
  exact ⟨⟨rows', rfl⟩, fun r hr => (k.rows r hr).trans (h.rows r hr)⟩

theorem put (row : VolumeBackupGroup) : SameOthers row.groupId d (d.putVolumeBackupGroup row) := by
  refine ⟨⟨_, rfl⟩, ?_⟩
  intro r hr
  rw [Db.putVolumeBackupGroup, mem_mergeRow]
  constructor
  · intro hmem
    cases hmem with
    | inl heq => exact absurd (congrArg VolumeBackupGroup.groupId heq) hr
    | inr hmem => exact hmem.1
  · intro hmem
    exact .inr ⟨hmem, fun hkey => hr (Prod.ext_iff.mp hkey).1⟩

theorem deleteGroupRows : SameOthers g d (d.deleteGroupRows g) := by
  refine ⟨⟨_, rfl⟩, ?_⟩
  intro r hr
  rw [Db.deleteGroupRows, List.mem_filter]
  exact ⟨And.left, fun hmem => ⟨hmem, decide_eq_true hr⟩⟩

theorem vms (h : SameOthers g d d') : d'.vms = d.vms := by
  obtain ⟨rows, rfl⟩ := h.frame
  rfl

theorem volumeGroups (h : SameOthers g d d') : d'.volumeGroups = d.volumeGroups := by
  obtain ⟨rows, rfl⟩ := h.frame
  rfl

theorem free_iff (h : SameOthers g d d') {id : String} :
    (∀ r ∈ d'.volumeBackupGroups, r.volumeId = id → r.groupId = g) ↔
      ∀ r ∈ d.volumeBackupGroups, r.volumeId = id → r.groupId = g := by
  constructor
  · intro hfree r hr hv
    by_contra hne
    exact hne (hfree r ((h.rows r hne).mpr hr) hv)
  · intro hfree r hr hv
    by_contra hne
    exact hne (hfree r ((h.rows r hne).mp hr) hv)

theorem storable (h : SameOthers g d d') : d'.storable g v = d.storable g v := by
  rw [Bool.eq_iff_iff]
  simp only [Db.storable, Bool.and_eq_true, Option.any_eq_true, List.all_eq_true,
    decide_eq_true_eq, h.vms, h.free_iff]

theorem stored (h : SameOthers g d d') : d'.stored g vs = d.stored g vs := by
  induction vs with
  | nil => rfl
  | cons v vs ih => rw [Db.stored, Db.stored, h.storable, ih]

end SameOthers

/-- A row is accepted where its volume is storable. -/
theorem accepts_rowOf (hgroup : ∃ G ∈ d.volumeGroups, G.id = g) {id : String} {vmId : ℕ}
    (hid : v.id = some id) (hvm : v.vmId = some vmId) :
    d.acceptsVolumeBackupGroup (VolumeGroupModel.rowOf named g id vmId v.name d) =
      d.storable g v := by
  rw [Bool.eq_iff_iff, accepts_iff]
  simp only [VolumeGroupModel.rowOf, Db.storable, hid, hvm, Option.any_some, Bool.and_eq_true,
    List.any_eq_true, List.all_eq_true, decide_eq_true_eq]
  exact ⟨And.right, fun h => ⟨hgroup, h⟩⟩

theorem raises_createRow {s : Session} (h : v.complete = false) :
    ∃ err, (VolumeGroupModel.createRow named g v).Raises s err s := by
  cases hid : v.id with
  | none =>
    exact ⟨.keyError "id", Proc.raises_bind.mpr
      (.inl (Proc.raises_ofOption.mpr ⟨hid, rfl, rfl⟩))⟩
  | some id =>
    have hvm : v.vmId = none := by simpa [VolumeArg.complete, hid] using h
    have hfirst : (Proc.ofOption v.id (.keyError "id") : Action String).Returns s id s :=
      Proc.returns_ofOption.mpr ⟨hid, rfl⟩
    exact ⟨.keyError "vm_id", Proc.raises_bind.mpr (.inr ⟨id, s, hfirst,
      Proc.raises_bind.mpr (.inl (Proc.raises_ofOption.mpr ⟨hvm, rfl, rfl⟩))⟩)⟩

/-- What one row does to the session: it is stored, or the open transaction is rolled back. -/
theorem returns_createRow {c : Db} (hgroup : ∃ G ∈ d.volumeGroups, G.id = g)
    (h : v.complete = true) : ∃ row : VolumeBackupGroup, row.groupId = g ∧
      v.id = some row.volumeId ∧ v.vmId = some row.vmId ∧
      (VolumeGroupModel.createRow named g v).Returns ⟨c, d⟩ ()
        (if d.storable g v then ⟨d.putVolumeBackupGroup row, d.putVolumeBackupGroup row⟩
          else ⟨c, c⟩) := by
  simp only [VolumeArg.complete, Bool.and_eq_true] at h
  obtain ⟨id, hid⟩ := Option.isSome_iff_exists.mp h.1
  obtain ⟨vmId, hvm⟩ := Option.isSome_iff_exists.mp h.2
  refine ⟨VolumeGroupModel.rowOf named g id vmId v.name d, rfl, hid, hvm, ?_⟩
  refine Proc.returns_bind.mpr ⟨id, _, Proc.returns_ofOption.mpr ⟨hid, rfl⟩, ?_⟩
  refine Proc.returns_bind.mpr ⟨vmId, _, Proc.returns_ofOption.mpr ⟨hvm, rfl⟩, ?_⟩
  have haccepts := @accepts_rowOf d g v named hgroup id vmId hid hvm
  cases hstorable : d.storable g v with
  | true =>
    exact Proc.returns_bind.mpr ⟨true, _, returns_save_true (haccepts.trans hstorable),
      Proc.returns_pure.mpr ⟨rfl, rfl⟩⟩
  | false =>
    exact Proc.returns_bind.mpr ⟨false, _, returns_save_false (haccepts.trans hstorable),
      Proc.returns_pure.mpr ⟨rfl, rfl⟩⟩

/-- The loop over the volumes of a request, from a session without open changes: however it ends,
the group has the stored volumes too. -/
theorem run_createRows (hgroup : ∃ G ∈ d.volumeGroups, G.id = g) :
    ∃ r d', Proc.forEach (VolumeGroupModel.createRow named g) vs ⟨d, d⟩ = some (r, ⟨d', d'⟩) ∧
      (r = .ok () ↔ ∀ w ∈ vs, w.complete = true) ∧ SameOthers g d d' ∧
      ∀ x, d'.GroupVolume g x ↔ d.GroupVolume g x ∨ x ∈ d.stored g vs := by
  induction vs generalizing d with
  | nil => exact ⟨.ok (), d, rfl, by simp, .refl, fun x => by simp [Db.stored]⟩
  | cons v vs ih =>
    cases hcomplete : v.complete with
    | false =>
      obtain ⟨err, hraises⟩ := @raises_createRow g v named ⟨d, d⟩ hcomplete
      have hrun : (Proc.forEach (VolumeGroupModel.createRow named g) (v :: vs)).Raises
          ⟨d, d⟩ err ⟨d, d⟩ := Proc.raises_bind.mpr (.inl hraises)
      exact ⟨.error err, d, hrun, by simp [hcomplete], .refl,
        fun x => by simp [Db.stored, hcomplete]⟩
    | true =>
      obtain ⟨row, hrow, hid, -, hreturns⟩ := @returns_createRow d g v named d hgroup hcomplete
      have hrest (s : Session) (hs : (VolumeGroupModel.createRow named g v).Returns ⟨d, d⟩ () s) :
          Proc.forEach (VolumeGroupModel.createRow named g) (v :: vs) ⟨d, d⟩ =
            Proc.forEach (VolumeGroupModel.createRow named g) vs s := hs.bind_eq
      cases hstorable : d.storable g v with
      | false =>
        rw [hstorable, if_neg (by simp)] at hreturns
        obtain ⟨r, d', hrun, hok, hsame, hvolumes⟩ := ih hgroup
        refine ⟨r, d', (hrest _ hreturns).trans hrun, by simp [hok, hcomplete], hsame, ?_⟩
        intro x
        rw [hvolumes x, Db.stored, if_pos hcomplete, if_neg (by simp [hstorable]),
          List.nil_append]
      | true =>
        rw [hstorable, if_pos rfl] at hreturns
        have hput : SameOthers g d (d.putVolumeBackupGroup row) := hrow ▸ SameOthers.put row
        obtain ⟨r, d', hrun, hok, hsame, hvolumes⟩ := @ih (d.putVolumeBackupGroup row) hgroup
        refine ⟨r, d', (hrest _ hreturns).trans hrun, by simp [hok, hcomplete],
          hput.trans hsame, ?_⟩
        intro x
        rw [hvolumes x, groupVolume_put, hput.stored, Db.stored, if_pos hcomplete,
          if_pos hstorable, hid, Option.toList_some, List.singleton_append, List.mem_cons, hrow]
        simp only [true_and, or_assoc]

/-- What the rows of a request make of a group that has rows. The old rows go only when the first
of the new ones is stored. -/
theorem run_replaceRows (hgroup : ∃ G ∈ d.volumeGroups, G.id = g)
    (hcomplete : v.complete = true) :
    ∃ r d', VolumeGroupModel.replaceRows g (v :: vs) ⟨d, d⟩ = some (r, ⟨d', d'⟩) ∧
      (r = .ok () ↔ ∀ w ∈ v :: vs, w.complete = true) ∧ SameOthers g d d' ∧
      ∀ x, d'.GroupVolume g x ↔
        d.storable g v = false ∧ d.GroupVolume g x ∨ x ∈ d.stored g (v :: vs) := by
  let c := d.deleteGroupRows g
  have hdelete : SameOthers g d c := .deleteGroupRows
  have hgone : ∀ x, ¬ c.GroupVolume g x := by
    intro x ⟨r, hr, hg, _⟩
    exact of_decide_eq_true (List.mem_filter.mp hr).2 hg
  obtain ⟨row, hrow, hid, -, hreturns⟩ := @returns_createRow c g v false d hgroup hcomplete
  rw [hdelete.storable] at hreturns
  have hrest (s : Session) (hs : (VolumeGroupModel.createRow false g v).Returns ⟨d, c⟩ () s) :
      VolumeGroupModel.replaceRows g (v :: vs) ⟨d, d⟩ =
        Proc.forEach (VolumeGroupModel.createRow false g) vs s := by
    rw [VolumeGroupModel.replaceRows, if_neg (by simp)]
    have hfirst : (execute (Db.deleteGroupRows g)).Returns ⟨d, d⟩ () ⟨d, c⟩ := returns_execute
    rw [hfirst.bind_eq]
    exact hs.bind_eq
  cases hstorable : d.storable g v with
  | false =>
    rw [hstorable, if_neg (by simp)] at hreturns
    obtain ⟨r, d', hrun, hok, hsame, hvolumes⟩ := @run_createRows d g vs false hgroup
    refine ⟨r, d', (hrest _ hreturns).trans hrun, by simp [hok, hcomplete], hsame, ?_⟩
    intro x
    rw [hvolumes x, Db.stored, if_pos hcomplete, if_neg (by simp [hstorable]), List.nil_append]
    simp
  | true =>
    rw [hstorable, if_pos rfl] at hreturns
    have hput : SameOthers g c (c.putVolumeBackupGroup row) := hrow ▸ SameOthers.put row
    obtain ⟨r, d', hrun, hok, hsame, hvolumes⟩ :=
      @run_createRows (c.putVolumeBackupGroup row) g vs false hgroup
    refine ⟨r, d', (hrest _ hreturns).trans hrun, by simp [hok, hcomplete],
      (hdelete.trans hput).trans hsame, ?_⟩
    intro x
    rw [hvolumes x, groupVolume_put, (hdelete.trans hput).stored, Db.stored, if_pos hcomplete,
      if_pos hstorable, hid, Option.toList_some, List.singleton_append, List.mem_cons, hrow]
    simp [hgone]

/-- The same volumes for the group, and the same rows for the others. -/
theorem Linked.of_sameOthers (h : Linked d) (hsame : SameOthers g d d') (hp : Partitioned d')
    (hvms : ∀ r ∈ d'.volumeBackupGroups, ∃ vm ∈ d'.vms, vm.id = r.vmId)
    (hvolumes : ∀ x, d'.GroupVolume g x ↔ d.GroupVolume g x) : Linked d' := by
  have hcovered : Covered d' := by
    intro job hjob x
    have hgv : d'.GroupVolume job.groupId x ↔ d.GroupVolume job.groupId x := by
      by_cases hg : job.groupId = g
      · rw [hg]
        exact hvolumes x
      · constructor
        · intro ⟨r, hr, hrg, hv⟩
          exact ⟨r, (hsame.rows r (hrg ▸ hg)).mp hr, hrg, hv⟩
        · intro ⟨r, hr, hrg, hv⟩
          exact ⟨r, (hsame.rows r (hrg ▸ hg)).mpr hr, hrg, hv⟩
    obtain ⟨rows, rfl⟩ := hsame.frame
    exact (h.covered job hjob x).trans hgv.symm
  obtain ⟨rows, rfl⟩ := hsame.frame
  exact ⟨hcovered, hp, h.jobIds, h.jobGroups, h.rowJobs, hvms⟩

end Rows

/-! ### Groups -/

section VolumeGroups

/-- Linked, and without a job for the group. -/
def JobFree (g : ℕ) (d : Db) : Prop := Linked d ∧ d.jobsOfGroup g = []

theorem jobFree_createRow {named : Bool} {g : ℕ} {v : VolumeArg} :
    (VolumeGroupModel.createRow named g v).Safe (Both (JobFree g)) FindsTwo := by
  refine Proc.Safe.bind (Proc.Safe.ofOption (by simp [FindsTwo])) fun id => ?_
  refine Proc.Safe.bind (Proc.Safe.ofOption (by simp [FindsTwo])) fun vmId => ?_
  refine Proc.Safe.bind (safe_save ?_) fun _ => Proc.Safe.pure
  intro d hd hok
  exact ⟨hd.1.putVolumeBackupGroup hok hd.2, hd.2⟩

theorem jobFree_create {newId : ℕ} {userId : Option ℕ} {req : CreateVolumeGroup} :
    (VolumeGroupModel.create newId userId req).Safe (Both (JobFree newId)) FindsTwo := by
  refine Proc.Safe.bind (Proc.Safe.ofOption (by simp [FindsTwo])) fun userId => ?_
  refine Proc.Safe.bind (safe_save fun d hd _ => ⟨hd.1.putVolumeGroup _, hd.2⟩) fun saved => ?_
  refine Proc.Safe.bind (Proc.Safe.raiseIf (by simp [FindsTwo])) fun _ => ?_
  exact Proc.Safe.bind (Proc.Safe.forEach fun _ _ => jobFree_createRow) fun _ => safe_groupDict

theorem jobFree_replaceRows {g : ℕ} {volumes : List VolumeArg} :
    (VolumeGroupModel.replaceRows g volumes).Safe (Both (JobFree g)) FindsTwo := by
  have hdelete : (execute (Db.deleteGroupRows g)).Safe (Both (JobFree g)) FindsTwo :=
    safe_execute fun d hd => ⟨hd.1.deleteGroupRows hd.2, hd.2⟩
  apply Proc.Safe.ite Proc.Safe.pure
  exact Proc.Safe.bind hdelete fun _ => Proc.Safe.forEach fun _ _ => jobFree_createRow

def RowVms (d : Db) : Prop := ∀ r ∈ d.volumeBackupGroups, ∃ vm ∈ d.vms, vm.id = r.vmId

theorem rowVms_replaceRows {g : ℕ} {volumes : List VolumeArg} :
    (VolumeGroupModel.replaceRows g volumes).Safe (Both RowVms) FindsTwo := by
  have hdelete : (execute (Db.deleteGroupRows g)).Safe (Both RowVms) FindsTwo :=
    safe_execute fun d hd r hr => hd r (List.mem_filter.mp hr).1
  apply Proc.Safe.ite Proc.Safe.pure
  refine Proc.Safe.bind hdelete fun _ => Proc.Safe.forEach fun v _ => ?_
  refine Proc.Safe.bind (Proc.Safe.ofOption (by simp [FindsTwo])) fun id => ?_
  refine Proc.Safe.bind (Proc.Safe.ofOption (by simp [FindsTwo])) fun vmId => ?_
  refine Proc.Safe.bind (safe_save ?_) fun _ => Proc.Safe.pure
  intro d hd hok r hr
  cases mem_mergeRow.mp hr with
  | inl hr => exact hr ▸ (accepts_iff.mp hok).2.1
  | inr hr => exact hd r hr.1

/-- The volumes of a request are those of the group: each that is stored is one of the group's,
and where the first one is stored, so that the old rows go, all of the group's are. -/
def KeepsVolumes (d : Db) (g : ℕ) : List VolumeArg → Prop
  | [] => True
  | v :: vs => v.complete = true ∧ (∀ x ∈ d.stored g (v :: vs), d.GroupVolume g x) ∧
    (d.storable g v = true → ∀ r ∈ d.groupRows g, r.volumeId ∈ d.stored g (v :: vs))

instance (d : Db) (g : ℕ) (vs : List VolumeArg) : Decidable (KeepsVolumes d g vs) :=
  match vs with
  | [] => isTrue trivial
  | _ :: _ => inferInstanceAs (Decidable (_ ∧ _ ∧ (_ → _)))

theorem stored_putVolumeGroup {d : Db} {group : VolumeGroup} {g : ℕ} {vs : List VolumeArg} :
    (d.putVolumeGroup group).stored g vs = d.stored g vs := by
  have hstorable (v : VolumeArg) : (d.putVolumeGroup group).storable g v = d.storable g v := rfl
  induction vs with
  | nil => rfl
  | cons v vs ih => rw [Db.stored, Db.stored, hstorable, ih]

theorem keepsVolumes_put {d : Db} {group : VolumeGroup} {g : ℕ} {vs : List VolumeArg} :
    KeepsVolumes (d.putVolumeGroup group) g vs ↔ KeepsVolumes d g vs := by
  cases vs with
  | nil => exact Iff.rfl
  | cons v vs =>
    simp only [KeepsVolumes, stored_putVolumeGroup]
    exact Iff.rfl

/-- Of a request for a group with a job, only the volumes matter. -/
theorem linked_replaceRows {d : Db} {g : ℕ} {volumes : List VolumeArg} (h : Linked d)
    (hgroup : ∃ G ∈ d.volumeGroups, G.id = g) (hkeeps : KeepsVolumes d g volumes)
    {r : Except Error Unit} {t : Session}
    (hrun : VolumeGroupModel.replaceRows g volumes ⟨d, d⟩ = some (r, t)) : Both Linked t := by
  cases volumes with
  | nil =>
    cases hrun
    exact ⟨h, h⟩
  | cons v vs =>
    obtain ⟨hcomplete, hown, hall⟩ := hkeeps
    obtain ⟨r', d', hrun', -, hsame, hvolumes⟩ := @run_replaceRows d g v vs hgroup hcomplete
    cases Option.some.inj (hrun.symm.trans hrun')
    have hp : Both Partitioned ⟨d', d'⟩ :=
      keeping_replaceRows.keeps hrun ⟨h.partitioned, h.partitioned⟩
    have hvms : Both RowVms ⟨d', d'⟩ := rowVms_replaceRows.keeps hrun ⟨h.rowVms, h.rowVms⟩
    have hlinked : Linked d' := by
      refine h.of_sameOthers hsame hp.1 hvms.1 ?_
      intro x
      rw [hvolumes x]
      constructor
      · intro hx
        cases hx with
        | inl hx => exact hx.2
        | inr hx => exact hown x hx
      · intro hx
        cases hstorable : d.storable g v with
        | false => exact .inl ⟨rfl, hx⟩
        | true =>
          obtain ⟨row, hrow, hg, hv⟩ := hx
          exact .inr (hv ▸ hall hstorable row (List.mem_filter.mpr ⟨hrow, decide_eq_true hg⟩))
    exact ⟨hlinked, hlinked⟩

/-- The rows are replaced in a session whose changes are all committed. -/
theorem update_eq {id : ℕ} {req : UpdateVolumeGroup} {group : VolumeGroup} {s : Session}
    (hgroup : s.pending.getVolumeGroup id = some group) :
    VolumeGroupModel.update id req s =
      (VolumeGroupModel.replaceRows id req.volumes >>= fun _ =>
        VolumeGroupModel.toDict (VolumeGroupModel.updated group req))
      ⟨s.pending.putVolumeGroup (VolumeGroupModel.updated group req),
        s.pending.putVolumeGroup (VolumeGroupModel.updated group req)⟩ := by
  have hread : (query fun d => d.getVolumeGroup id).Returns s (some group) s :=
    returns_query.mpr ⟨hgroup, rfl⟩
  rw [VolumeGroupModel.update, hread.bind_eq]
  rfl

theorem linked_updateGroup {id : ℕ} {req : UpdateVolumeGroup} {group : VolumeGroup} :
    (VolumeGroupModel.update id req).Leads
      (fun s => (Both Linked s ∧ (s.pending.jobsOfGroup id ≠ [] →
        KeepsVolumes s.pending id req.volumes)) ∧ s.pending.getVolumeGroup id = some group)
      (Both Linked) FindsTwo := by
  intro s r t hrun ⟨⟨hs, hkeeps⟩, hgroup⟩
  have hid : group.id = id := of_decide_eq_true (List.find?_some hgroup :)
  let new := VolumeGroupModel.updated group req
  let q := s.pending.putVolumeGroup new
  have hq : Linked q := hs.2.putVolumeGroup new
  have hnew : ∃ G ∈ q.volumeGroups, G.id = id := ⟨new, mem_mergeRow.mpr (.inl rfl), hid⟩
  rw [update_eq hgroup] at hrun
  have hrows : (VolumeGroupModel.replaceRows id req.volumes).Leads (fun u => u = ⟨q, q⟩)
      (Both Linked) FindsTwo := by
    by_cases hnone : s.pending.jobsOfGroup id = []
    · intro u r' t' hrun' hu
      have hfree : Both (JobFree id) u := hu ▸ ⟨⟨hq, hnone⟩, ⟨hq, hnone⟩⟩
      obtain ⟨ht, herr⟩ := jobFree_replaceRows hrun' hfree
      exact ⟨⟨ht.1.1, ht.2.1⟩, herr⟩
    · intro u r' t' hrun' hu
      subst hu
      exact ⟨linked_replaceRows hq hnew (keepsVolumes_put.mpr (hkeeps hnone)) hrun',
        (keeping_replaceRows hrun' ⟨hq.partitioned, hq.partitioned⟩).2⟩
  exact Proc.Leads.bind hrows (fun _ hu => hu) (fun _ => safe_groupDict) hrun rfl

end VolumeGroups

/-- No update of a group that has a job changes its volumes. -/
def Allowed (s : Session) : Event → Prop
  | .serve (.updateVolumeGroup ctx id req) =>
    VMController.visible ctx (s.pending.getVolumeGroup id) = true →
      s.pending.jobsOfGroup id ≠ [] → KeepsVolumes s.pending id req.volumes
  | _ => True

instance : ∀ s e, Decidable (Allowed s e)
  | _, .serve (.updateVolumeGroup _ _ _) => inferInstanceAs (Decidable (_ → _ → _))
  | _, .serve (.createVolumeGroup _ _ _ _) => isTrue trivial
  | _, .serve (.deleteVolumeGroup _ _) => isTrue trivial
  | _, .serve (.createScheduleJob _ _ _ _ _) => isTrue trivial
  | _, .serve (.updateScheduleJob _ _ _) => isTrue trivial
  | _, .serve (.deleteScheduleJob _ _) => isTrue trivial
  | _, .newSession => isTrue trivial

theorem jobsOfGroup_of_free {d : Db} {newId : ℕ} (h : Linked d)
    (hfree : (d.volumeGroups.all fun g => g.id ≠ newId) = true) : d.jobsOfGroup newId = [] := by
  apply jobsOfGroup_eq_nil.mpr
  intro j hj hg
  obtain ⟨G, hG, hid⟩ := h.jobGroups j hj
  exact of_decide_eq_true (List.all_eq_true.mp hfree G hG) (hid.trans hg)

theorem linked_of_serve {s t : Session} {req : Request} (hs : Both Linked s)
    (hok : Allowed s (.serve req)) (h : step s (.serve req) = some t) : Both Linked t := by
  obtain ⟨hfree, r, hrun⟩ := step_serve.mp h
  rw [Bool.and_eq_true] at hfree
  cases req with
  | createVolumeGroup ctx newId ops req =>
    have hP : Both (JobFree newId) s := ⟨⟨hs.1, jobsOfGroup_of_free hs.1 hfree.1⟩,
      ⟨hs.2, jobsOfGroup_of_free hs.2 hfree.2⟩⟩
    have hlead := @leads_createVolumeGroup (Both (JobFree newId)) (Both (JobFree newId)) ctx newId
      ops req (fun _ hu => hu) (fun _ hu => hu.2.1.partitioned) fun _ => jobFree_create
    have ht := (hlead hrun hP).1
    exact ⟨ht.1.1, ht.2.1⟩
  | updateVolumeGroup ctx id req =>
    have hlead := @leads_updateVolumeGroup (fun u => u = s) (Both Linked) ctx id req
      (fun _ hu => hu ▸ hs) fun group hvisible => by
        intro u r' t' hrun' ⟨hu, hgroup⟩
        subst hu
        exact linked_updateGroup hrun' ⟨⟨hs, hok (hgroup ▸ hvisible)⟩, hgroup⟩
    exact (hlead hrun rfl).1
  | deleteVolumeGroup ctx id => exact (safe_deleteVolumeGroup linking_delete).keeps hrun hs
  | createScheduleJob ctx newId uuid drawn req =>
    have hid : FreeId newId s := fun j hj => of_decide_eq_true (List.all_eq_true.mp hfree.2 j hj)
    have hlead := @leads_createScheduleJob (fun u => Both Linked u ∧ FreeId newId u) (Both Linked)
      ctx newId uuid drawn req (fun _ hu => hu.1) fun _ => linked_createJob
    exact (hlead hrun ⟨hs, hid⟩).1
  | updateScheduleJob ctx id req =>
    exact (safe_updateScheduleJob fun _ _ => linked_updateJob).keeps hrun hs
  | deleteScheduleJob ctx id => exact (safe_deleteScheduleJob linking_deleteJob).keeps hrun hs

section Runs
variable {users : List User} {vms : List VM} {nodes : List Node} {storages : List Storage}
  {versions : List Version} {s : Session}

/-- Every job covers its group, in every state of a run in which no update changes the volumes of
a group that has a job. -/
theorem covered_of_steps (h : Steps step Allowed ⟨.start users vms nodes storages versions,
    .start users vms nodes storages versions⟩ s) : Covered s.committed := by
  have hlinked : Both Linked s := by
    refine Steps.invariant h ⟨Linked.start, Linked.start⟩ ?_
    intro u e t hu hok hstep
    cases e with
    | serve req => exact linked_of_serve hu hok hstep
    | newSession =>
      cases hstep
      exact ⟨hu.1, hu.1⟩
  exact hlinked.1.covered

/-- An update that names the volume of the group again, in a group with a job. -/
theorem covered_of_steps_example : ∃ s, Steps step Allowed ⟨exampleStart, exampleStart⟩ s ∧
    s.committed.volumeScheduleJobs = [⟨1, "vol-1", none, 1⟩] ∧ Covered s.committed := by
  have hrun : (runIf step Allowed ⟨exampleStart, exampleStart⟩ exampleRequests).any (fun s =>
      s.committed.volumeScheduleJobs = [⟨1, "vol-1", none, 1⟩]) = true := by decide +kernel
  obtain ⟨s, hs, hf⟩ := exists_steps_of_runIf hrun
  exact ⟨s, hs, of_decide_eq_true hf, covered_of_steps hs⟩

/-- An update puts another volume into the group; its job goes on without it. -/
theorem schedule_job_misses_volume :
    ¬ ∀ s, Reaches step ⟨exampleStart, exampleStart⟩ s → Covered s.committed := by
  intro h
  let update : Event := .serve (.updateVolumeGroup ⟨⟨1, "alice"⟩, false⟩ 1
    ⟨none, none, [⟨some "vol-2", some 1, none⟩]⟩)
  have hrun : (run step ⟨exampleStart, exampleStart⟩ (exampleRequests ++ [update])).any (fun s =>
      s.committed.scheduleJobs.head?.any fun j => j.id = 1 ∧ j.groupId = 1 ∧
        s.committed.GroupVolume 1 "vol-2" ∧
        ∀ r ∈ s.committed.volumeScheduleJobs, r.volumeId ≠ "vol-2") = true := by decide +kernel
  obtain ⟨s, hs, hf⟩ := exists_reaches_of_run hrun
  obtain ⟨j, hj, hvolumes⟩ := (Option.any_eq_true _ _).mp hf
  obtain ⟨hid, hg, hgroup, hrows⟩ := of_decide_eq_true hvolumes
  obtain ⟨r, hr, -, hv⟩ :=
    (h s hs j (List.mem_of_mem_head? hj) "vol-2").mpr (hg ▸ hgroup)
  exact hrows r hr hv

end Runs

end Benji.Services

import Benji.Services.Coverage
import Benji.Services.Version

/-! Which requests of a tenant touch what belongs to another tenant. -/
namespace Benji.Services
open Lib

namespace Db

def foreignVersion (d : Db) (u : ℕ) (v : Version) : Bool :=
  (d.getVm v.vmId).any fun vm => vm.userId ≠ u

def foreignJob (d : Db) (u : ℕ) (j : ScheduleJob) : Bool :=
  (d.getStorage j.storageId).any fun s => s.userId ≠ u

/-- The VMs that a volume is attached to. -/
def volumeVms (d : Db) (cloud : Ops) (x : String) : List VM :=
  d.vms.filter fun vm => (cloud.getVolumeById x).any fun v =>
    v.attachments.any fun server => vm.emsRef = some server

/-- A volume of another user's VM, and of none of the user's. -/
def foreignVolume (d : Db) (cloud : Ops) (u : ℕ) (x : String) : Bool :=
  (d.volumeVms cloud x).any (fun vm => vm.userId ≠ u) &&
    (d.volumeVms cloud x).all fun vm => vm.userId ≠ u

/-- The node that a version is on is there and in use. -/
def activeNode (d : Db) (v : Version) : Bool :=
  (d.getStorage v.storageId).any fun s => (d.getNode s.nodeId).any fun n => !n.deleted

end Db

/-- The primary keys. -/
structure Keyed (d : Db) : Prop where
  versions : (d.versions.map Version.id).Nodup
  jobs : (d.scheduleJobs.map ScheduleJob.id).Nodup
  groups : (d.volumeGroups.map VolumeGroup.id).Nodup

section Isolation
variable (d : Db) (cloud : Ops) (u : ℕ)

/-- Nothing of another user is in the response, or worked on by the task that is started. -/
def Response.Isolated : Response → Prop
  | .nothing => True
  | .group g rows => g.userId = u ∧ ∀ r ∈ rows, d.foreignVolume cloud u r.volumeId = false
  | .job j rows => d.foreignJob u j = false ∧ ∀ r ∈ rows, d.foreignVolume cloud u r.volumeId = false
  | .version v => d.foreignVersion u v = false
  | .versions vs => ∀ v ∈ vs, d.foreignVersion u v = false
  | .started (.restore _ _ id volume _ _) =>
    (∀ v, d.getVersion id = some v → d.foreignVersion u v = false) ∧
      d.foreignVolume cloud u volume = false
  | .started (.delete _ _ id _ _ _) =>
    ∀ v, d.getVersion id = some v → d.foreignVersion u v = false

/-- What a request leaves behind in the database: everything of other users is as before, and no
volume of theirs has become part of a group or a job, or of a version. -/
structure Apart (t : Db) : Prop where
  versions : ∀ v ∈ d.versions, d.foreignVersion u v = true → v ∈ t.versions
  jobs : ∀ j ∈ d.scheduleJobs, d.foreignJob u j = true → j ∈ t.scheduleJobs ∧
    ∀ r : VolumeScheduleJob, r.sjId = j.id → (r ∈ t.volumeScheduleJobs ↔ r ∈ d.volumeScheduleJobs)
  groups : ∀ g ∈ d.volumeGroups, g.userId ≠ u → g ∈ t.volumeGroups ∧
    ∀ r : VolumeBackupGroup, r.groupId = g.id →
      (r ∈ t.volumeBackupGroups ↔ r ∈ d.volumeBackupGroups)
  groupVolumes : ∀ g x, t.GroupVolume g x → ¬ d.GroupVolume g x → d.foreignVolume cloud u x = false
  jobVolumes : ∀ j x, t.JobVolume j x → ¬ d.JobVolume j x → d.foreignVolume cloud u x = false
  versionVolumes : ∀ v ∈ t.versions, (∀ w ∈ d.versions, w.id ≠ v.id) →
    d.foreignVolume cloud u v.volume = false

/-- The request of a handler keeps apart what belongs to other users. -/
def Isolated (p : Action Response) : Prop :=
  ∀ r t, p ⟨d, d⟩ = some (r, t) →
    (∀ resp, r = .ok resp → resp.Isolated d cloud u) ∧ Apart d cloud u t.committed

end Isolation

section Rules
variable {d : Db} {cloud : Ops} {u : ℕ}

theorem Apart.refl : Apart d cloud u d where
  versions _ hv _ := hv
  jobs _ hj _ := ⟨hj, fun _ _ => Iff.rfl⟩
  groups _ hg _ := ⟨hg, fun _ _ => Iff.rfl⟩
  groupVolumes _ _ h hn := absurd h hn
  jobVolumes _ _ h hn := absurd h hn
  versionVolumes v hv hn := absurd rfl (hn v hv)

theorem isolated_of_run {p : Action Response} {r : Except Error Response} {t : Session}
    (h : p ⟨d, d⟩ = some (r, t)) : Isolated d cloud u p ↔
      (∀ resp, r = .ok resp → resp.Isolated d cloud u) ∧ Apart d cloud u t.committed := by
  constructor
  · intro hp
    exact hp r t h
  · intro hp r' t' hrun
    cases Option.some.inj (hrun.symm.trans h)
    exact hp

theorem isolated_pure {resp : Response} :
    Isolated d cloud u (pure resp) ↔ resp.Isolated d cloud u := by
  have hrun : (pure resp : Action Response) ⟨d, d⟩ = some (.ok resp, ⟨d, d⟩) := rfl
  rw [isolated_of_run hrun]
  constructor
  · intro h
    exact h.1 resp rfl
  · intro h
    refine ⟨?_, .refl⟩
    rintro _ ⟨⟩
    exact h

theorem isolated_query_bind {α : Type} {f : Db → α} {k : α → Action Response} :
    Isolated d cloud u (query f >>= k) ↔ Isolated d cloud u (k (f d)) := Iff.rfl

theorem isolated_bind_of_returns {α : Type} {p : Action α} {k : α → Action Response} {a : α}
    (h : p.Returns ⟨d, d⟩ a ⟨d, d⟩) :
    Isolated d cloud u (p >>= k) ↔ Isolated d cloud u (k a) := by
  have heq : (p >>= k) ⟨d, d⟩ = k a ⟨d, d⟩ := h.bind_eq
  unfold Isolated
  rw [heq]

theorem isolated_bind_of_raises {α : Type} {p : Action α} {k : α → Action Response} {e : Error}
    (h : p.Raises ⟨d, d⟩ e ⟨d, d⟩) : Isolated d cloud u (p >>= k) := by
  have hrun : (p >>= k) ⟨d, d⟩ = some (.error e, ⟨d, d⟩) := Proc.raises_bind.mpr (.inl h)
  exact (isolated_of_run hrun).mpr ⟨fun _ h => (by cases h), .refl⟩

theorem isolated_ofOption_bind {α : Type} {o : Option α} {e : Error} {k : α → Action Response} :
    Isolated d cloud u (Proc.ofOption o e >>= k) ↔
      ∀ a, o = some a → Isolated d cloud u (k a) := by
  cases o with
  | none =>
    refine ⟨fun _ _ h => (by cases h), fun _ => ?_⟩
    exact isolated_bind_of_raises (Proc.raises_ofOption.mpr ⟨rfl, rfl, rfl⟩)
  | some a =>
    rw [isolated_bind_of_returns (Proc.returns_ofOption.mpr ⟨rfl, rfl⟩)]
    simp

theorem isolated_raiseIf_bind {c : Prop} [Decidable c] {e : Error} {p : Action Response} :
    Isolated d cloud u (Proc.raiseIf c e >>= fun _ => p) ↔ (¬ c → Isolated d cloud u p) := by
  by_cases hc : c
  · refine ⟨fun _ hn => absurd hc hn, fun _ => ?_⟩
    exact isolated_bind_of_raises (Proc.raises_raiseIf.mpr ⟨hc, rfl, rfl⟩)
  · rw [isolated_bind_of_returns (a := ()) (Proc.returns_raiseIf.mpr ⟨hc, rfl⟩)]
    simp [hc]

theorem isolated_lookup_bind {α : Type} {model : Model} {f : Db → List α}
    {k : Option α → Action Response} :
    Isolated d cloud u (lookup model f >>= k) ↔
      ((f d).length ≤ 1 → Isolated d cloud u (k (f d).head?)) := by
  by_cases hlen : (f d).length ≤ 1
  · rw [isolated_bind_of_returns (returns_lookup hlen)]
    simp [hlen]
  · refine ⟨fun _ h => absurd h hlen, fun _ => ?_⟩
    have hraises : (lookup model f).Raises ⟨d, d⟩ (.multipleResultsFound model) ⟨d, d⟩ := by
      refine Proc.raises_bind.mpr (.inr ⟨_, _, returns_query.mpr ⟨rfl, rfl⟩, ?_⟩)
      match hf : f d with
      | [] => simp [hf] at hlen
      | [a] => simp [hf] at hlen
      | a :: b :: rest => rfl
    exact isolated_bind_of_raises hraises

end Rules

section Versions
variable {d : Db} {cloud : Ops} {u : ℕ} {id : ℕ}

theorem isolated_getVersion : Isolated d cloud u (VersionController.getVersion id) ↔
    ∀ v, d.getVersion id = some v → d.foreignVersion u v = false := by
  rw [VersionController.getVersion, isolated_query_bind, isolated_ofOption_bind]
  exact forall₂_congr fun v _ => isolated_pure

theorem isolated_listVersions {ctx : Context} {userName : Option String}
    {answers : ℕ → List User} {page pageSize : Option ℤ} {volumeId : String} :
    Isolated d cloud u
        (VersionController.listVersions ctx userName answers page pageSize volumeId) ↔
      (((VersionController.usersQuery ctx userName d).dumpRawObject answers page pageSize).1 ≠ [] →
        ∀ v ∈ d.versions, v.volume = volumeId → d.foreignVersion u v = false) := by
  have hversions : (Response.versions (d.versions.filter fun v => v.volume = volumeId)).Isolated
      d cloud u ↔ ∀ v ∈ d.versions, v.volume = volumeId → d.foreignVersion u v = false := by
    simp only [Response.Isolated, List.mem_filter, decide_eq_true_eq, and_imp]
  rw [VersionController.listVersions, isolated_query_bind, ← hversions]
  dsimp only
  by_cases hnobody :
      ((VersionController.usersQuery ctx userName d).dumpRawObject answers page pageSize).1 = []
  · rw [if_pos hnobody, isolated_pure]
    exact ⟨fun _ hne => absurd hnobody hne, fun _ => trivial⟩
  · rw [if_neg hnobody, isolated_query_bind, isolated_pure]
    exact ⟨fun h _ => h, fun h => h hnobody⟩

theorem isolated_nodeOf_bind {v : Version} {k : Node → Action Response} :
    Isolated d cloud u (VersionController.nodeOf v >>= k) ↔
      ∀ s n, d.getStorage v.storageId = some s → d.getNode s.nodeId = some n →
        Isolated d cloud u (k n) := by
  have hstorage : (query fun d => d.getStorage v.storageId).Returns ⟨d, d⟩
      (d.getStorage v.storageId) ⟨d, d⟩ := returns_query.mpr ⟨rfl, rfl⟩
  cases hs : d.getStorage v.storageId with
  | none =>
    rw [hs] at hstorage
    refine ⟨fun _ s n h => (by cases h), fun _ => isolated_bind_of_raises (e := .attributeError) ?_⟩
    exact Proc.raises_bind.mpr (.inr ⟨_, _, hstorage,
      Proc.raises_bind.mpr (.inl (Proc.raises_ofOption.mpr ⟨rfl, rfl, rfl⟩))⟩)
  | some s =>
    rw [hs] at hstorage
    have hfound : (Proc.ofOption (some s) .attributeError : Action Storage).Returns ⟨d, d⟩ s
      ⟨d, d⟩ := Proc.returns_ofOption.mpr ⟨rfl, rfl⟩
    have hnode : (query fun d => d.getNode s.nodeId).Returns ⟨d, d⟩ (d.getNode s.nodeId) ⟨d, d⟩ :=
      returns_query.mpr ⟨rfl, rfl⟩
    cases hn : d.getNode s.nodeId with
    | none =>
      rw [hn] at hnode
      refine ⟨fun _ s' n hs' hn' => ?_, fun _ => isolated_bind_of_raises (e := .attributeError) ?_⟩
      · cases hs'
        exact absurd (hn.symm.trans hn') (by simp)
      · exact Proc.raises_bind.mpr (.inr ⟨_, _, hstorage, Proc.raises_bind.mpr (.inr ⟨_, _, hfound,
          Proc.raises_bind.mpr (.inr ⟨_, _, hnode, Proc.raises_ofOption.mpr ⟨rfl, rfl, rfl⟩⟩)⟩)⟩)
    | some n =>
      rw [hn] at hnode
      have hreturns : (VersionController.nodeOf v).Returns ⟨d, d⟩ n ⟨d, d⟩ :=
        Proc.returns_bind.mpr ⟨_, _, hstorage, Proc.returns_bind.mpr ⟨_, _, hfound,
          Proc.returns_bind.mpr ⟨_, _, hnode, Proc.returns_ofOption.mpr ⟨rfl, rfl⟩⟩⟩⟩
      rw [isolated_bind_of_returns hreturns]
      refine ⟨fun h s' n' hs' hn' => ?_, fun h => h s n rfl hn⟩
      cases hs'
      cases hn.symm.trans hn'
      exact h

theorem activeNode_iff {v : Version} : d.activeNode v = true ↔
    ∃ s n, d.getStorage v.storageId = some s ∧ d.getNode s.nodeId = some n ∧ n.deleted = false := by
  simp [Db.activeNode, Option.any_eq_true]

theorem isolated_deleteVersion {force keep override : Bool} :
    Isolated d cloud u (VersionController.deleteVersion id force keep override) ↔
      ∀ v, d.getVersion id = some v → d.activeNode v = true → d.foreignVersion u v = false := by
  rw [VersionController.deleteVersion, isolated_query_bind, isolated_ofOption_bind]
  refine forall₂_congr fun v hv => ?_
  rw [isolated_nodeOf_bind, activeNode_iff]
  have htask (n : Node) : (Response.started (.delete n.host n.port id force keep override)).Isolated
      d cloud u ↔ d.foreignVersion u v = false := by
    simp [Response.Isolated, hv]
  constructor
  · intro h ⟨s, n, hs, hn, hactive⟩
    have hn' := h s n hs hn
    rw [isolated_raiseIf_bind, isolated_pure] at hn'
    exact (htask n).mp (hn' (by simp [hactive]))
  · intro h s n hs hn
    rw [isolated_raiseIf_bind, isolated_pure]
    intro hactive
    exact (htask n).mpr (h ⟨s, n, hs, hn, by simpa using hactive⟩)

theorem isolated_restoreVersion {ctx : Context} {ops : Option Ops} {sparse force wait : Bool}
    (hctx : ctx.isAdmin = false) (hops : ∀ o, ops = some o → o = cloud) :
    Isolated d cloud ctx.user.id
        (VersionController.restoreVersion ctx id ops sparse force wait) ↔
      ∀ v, d.getVersion id = some v → v.status ≠ .incomplete →
        (∃ vm, d.getVm v.vmId = some vm ∧ vm.userId = ctx.user.id) → d.activeNode v = true →
        ops.isSome = true → VersionController.otherSize cloud v = false → wait = false →
        d.foreignVolume cloud ctx.user.id v.volume = false := by
  rw [VersionController.restoreVersion, isolated_query_bind, isolated_ofOption_bind]
  refine forall₂_congr fun v hv => ?_
  rw [isolated_raiseIf_bind, isolated_query_bind, isolated_ofOption_bind]
  refine imp_congr_right fun _ => ?_
  rw [activeNode_iff]
  have htask (n : Node) (vm : VM) (hvm : d.getVm v.vmId = some vm)
      (hown : vm.userId = ctx.user.id) :
      (Response.started (.restore n.host n.port id v.volume sparse force)).Isolated
        d cloud ctx.user.id ↔ d.foreignVolume cloud ctx.user.id v.volume = false := by
    have hforeign : d.foreignVersion ctx.user.id v = false := by
      simp [Db.foreignVersion, hvm, hown]
    simp [Response.Isolated, hv, hforeign]
  constructor
  · intro h ⟨vm, hvm, hown⟩ ⟨s, n, hs, hn, hactive⟩ hsome hsize hwait
    have hvm' := h vm hvm
    rw [isolated_raiseIf_bind, isolated_nodeOf_bind] at hvm'
    have hn' := hvm' (by simp [hown]) s n hs hn
    rw [isolated_raiseIf_bind] at hn'
    obtain ⟨o, ho⟩ := Option.isSome_iff_exists.mp hsome
    have hlast := hn' (by simp [hactive])
    rw [ho, hops o ho] at hlast
    simp only [] at hlast
    rw [isolated_raiseIf_bind, isolated_raiseIf_bind, isolated_pure] at hlast
    exact (htask n vm hvm hown).mp (hlast (by simp [hsize]) (by simp [hwait]))
  · intro h vm hvm
    rw [isolated_raiseIf_bind, isolated_nodeOf_bind]
    intro hown s n hs hn
    rw [isolated_raiseIf_bind]
    intro hactive
    cases ho : ops with
    | none => exact isolated_pure.mpr trivial
    | some o =>
      simp only []
      rw [hops o ho, isolated_raiseIf_bind, isolated_raiseIf_bind, isolated_pure]
      intro hsize hwait
      have hown' : vm.userId = ctx.user.id := by simpa [hctx] using hown
      exact (htask n vm hvm hown').mpr (h ⟨vm, hvm, hown'⟩ ⟨s, n, hs, hn, by simpa using hactive⟩
        (by simp [ho]) (by simpa using hsize) (by simpa using hwait))

theorem isolated_patchVersion {isProtected : Option Bool} {labels : Option LabelChanges}
    (hd : Keyed d) : Isolated d cloud u (VersionController.patchVersion id isProtected labels) ↔
      ∀ v, d.getVersion id = some v → d.foreignVersion u v = false := by
  rw [VersionController.patchVersion, isolated_query_bind, isolated_ofOption_bind]
  refine forall₂_congr fun v hv => ?_
  let w := v.patched isProtected labels
  obtain ⟨hid, hvm, -⟩ := v.patched_columns isProtected labels
  have hsame : d.foreignVersion u w = d.foreignVersion u v := by
    rw [Db.foreignVersion, Db.foreignVersion, hvm]
  have hrun : (save (fun _ => true) (fun d => d.putVersion w) >>= fun _ =>
      (pure (.version w) : Action Response)) ⟨d, d⟩ =
        some (.ok (.version w), ⟨d.putVersion w, d.putVersion w⟩) := rfl
  rw [isolated_of_run hrun]
  constructor
  · intro h
    exact hsame.symm.trans (h.1 _ rfl)
  · intro hown
    refine ⟨?_, ?_⟩
    · rintro _ ⟨⟩
      exact hsame.trans hown
    · have hmem : v ∈ d.versions := List.mem_of_find?_eq_some hv
      have hrefl : Apart d cloud u d := .refl
      refine ⟨?_, hrefl.jobs, hrefl.groups, hrefl.groupVolumes, hrefl.jobVolumes, ?_⟩
      · intro v' hv' hforeign
        refine mem_mergeRow.mpr (.inr ⟨hv', ?_⟩)
        intro hkey
        rw [List.inj_on_of_nodup_map hd.versions hv' hmem (hkey.trans hid), hown] at hforeign
        exact absurd hforeign (by simp)
      · intro v' hv' hnew
        cases mem_mergeRow.mp hv' with
        | inl hv' => exact absurd (hid.symm.trans (congrArg Version.id hv'.symm)) (hnew v hmem)
        | inr hv' => exact absurd rfl (hnew v' hv'.1)

end Versions

section Jobs
variable {d : Db} {cloud : Ops} {ctx : Context} {id : ℕ}

/-- A job of the user, with volumes of which none is another user's. -/
def OwnJob (d : Db) (cloud : Ops) (u : ℕ) (j : ScheduleJob) : Prop :=
  d.foreignJob u j = false ∧ ∀ r ∈ d.jobRows j.id, d.foreignVolume cloud u r.volumeId = false

/-- An update of a job goes through: the storage that is named after the user is the job's, and
the values are in range. -/
def updateAccepted (ctx : Context) (d : Db) (j : ScheduleJob) (req : UpdateScheduleJob) : Bool :=
  (match d.storages.filter fun s => s.name = ctx.user.userName with
    | [s] => s.id = j.storageId
    | _ => false) &&
  !(req.retention.any fun r => r < -1 ∨ r = 0 ∨ r > 360) &&
  !(req.startTime.any fun t => t < 0 ∨ t > 1440) && req.userName.isNone &&
  (ScheduleJobController.newDays j req).isSome

theorem isolated_jobDict {u : ℕ} {j : ScheduleJob} :
    Isolated d cloud u (ScheduleJobModel.toDict j) ↔ OwnJob d cloud u j := by
  rw [ScheduleJobModel.toDict, isolated_query_bind, isolated_pure]
  exact Iff.rfl

theorem isolated_getScheduleJob {u : ℕ} :
    Isolated d cloud u (ScheduleJobController.getScheduleJob id) ↔
      ∀ j, d.getScheduleJob id = some j → OwnJob d cloud u j := by
  rw [ScheduleJobController.getScheduleJob, isolated_query_bind, isolated_ofOption_bind]
  exact forall₂_congr fun j _ => isolated_jobDict

/-- The rows of a job that is put in the place of one of the user's. -/
theorem isolated_updateJob {u : ℕ} {j : ScheduleJob} {days : List String}
    {req : UpdateScheduleJob} (hd : Keyed d) (hj : d.getScheduleJob id = some j) :
    Isolated d cloud u (ScheduleJobModel.update j days req) ↔ OwnJob d cloud u j := by
  have hmem : j ∈ d.scheduleJobs := List.mem_of_find?_eq_some hj
  let new : ScheduleJob := { j with
    name := req.name.getD j.name
    retention := req.retention.getD j.retention
    daysOfWeek := ",".intercalate days
    startTime := req.startTime.getD j.startTime
    mode := req.mode.or j.mode
    compression := req.compression.or j.compression }
  have hrun : ScheduleJobModel.update j days req ⟨d, d⟩ =
    some (.ok (.job new (d.jobRows j.id)), ⟨d.putScheduleJob new, d.putScheduleJob new⟩) := rfl
  rw [isolated_of_run hrun]
  constructor
  · intro h
    exact h.1 _ rfl
  · intro hown
    refine ⟨?_, ?_⟩
    · rintro _ ⟨⟩
      exact hown
    · have hrefl : Apart d cloud u d := .refl
      refine ⟨hrefl.versions, ?_, hrefl.groups, hrefl.groupVolumes, hrefl.jobVolumes,
        hrefl.versionVolumes⟩
      intro j' hj' hforeign
      refine ⟨mem_mergeRow.mpr (.inr ⟨hj', ?_⟩), fun _ _ => Iff.rfl⟩
      intro hkey
      rw [List.inj_on_of_nodup_map hd.jobs hj' hmem hkey, hown.1] at hforeign
      exact absurd hforeign (by simp)

theorem isolated_updateScheduleJob {req : UpdateScheduleJob} (hd : Keyed d)
    (hctx : ctx.isAdmin = false) :
    Isolated d cloud ctx.user.id (ScheduleJobController.updateScheduleJob ctx id req) ↔
      ∀ j, d.getScheduleJob id = some j → updateAccepted ctx d j req = true →
        OwnJob d cloud ctx.user.id j := by
  rw [ScheduleJobController.updateScheduleJob, isolated_query_bind, isolated_ofOption_bind]
  refine forall₂_congr fun j hj => ?_
  rw [ScheduleJobModel.getStorage, isolated_lookup_bind]
  unfold updateAccepted
  generalize d.storages.filter (fun s => s.name = ctx.user.userName) = storages
  match storages with
  | [] =>
    rw [isolated_ofOption_bind]
    simp
  | a :: b :: rest => simp
  | [s] =>
    have hlen : [s].length ≤ 1 := Nat.le_refl 1
    simp only [hlen, forall_const, List.head?_cons, isolated_ofOption_bind, Option.some.injEq,
      forall_eq', isolated_raiseIf_bind]
    simp only [hctx, true_and, not_not, Bool.and_eq_true, decide_eq_true_eq, Bool.not_eq_true',
      Option.isSome_iff_exists, and_imp, forall_exists_index, Bool.not_eq_true,
      Option.isNone_iff_eq_none, not_exists, Option.eq_none_iff_forall_ne_some]
    refine imp_congr_right fun _ => imp_congr_right fun _ => imp_congr_right fun _ =>
      imp_congr_right fun _ => forall₂_congr fun days _ => ?_
    exact isolated_updateJob hd hj

/-- Only a job of the user is deleted. -/
theorem isolated_deleteScheduleJob (hd : Keyed d) (hctx : ctx.isAdmin = false) :
    Isolated d cloud ctx.user.id (ScheduleJobController.deleteScheduleJob ctx id) := by
  rw [ScheduleJobController.deleteScheduleJob, isolated_query_bind, isolated_ofOption_bind]
  intro j hj
  rw [isolated_query_bind, isolated_ofOption_bind]
  intro s hs
  rw [isolated_raiseIf_bind]
  intro hown
  have howner : s.userId = ctx.user.id := by simpa [hctx] using hown
  have hmem : j ∈ d.scheduleJobs := List.mem_of_find?_eq_some hj
  have hid : j.id = id := of_decide_eq_true (List.find?_some hj :)
  refine (isolated_of_run (@returns_deleteJob id ⟨d, d⟩)).mpr ⟨?_, ?_⟩
  · rintro _ ⟨⟩
    trivial
  · have hrefl : Apart d cloud ctx.user.id d := .refl
    refine ⟨hrefl.versions, ?_, hrefl.groups, hrefl.groupVolumes, ?_, hrefl.versionVolumes⟩
    · intro j' hj' hforeign
      have hne : j'.id ≠ id := by
        intro heq
        have hsame := List.inj_on_of_nodup_map hd.jobs hj' hmem (heq.trans hid.symm)
        rw [hsame] at hforeign
        simp [Db.foreignJob, hs, howner] at hforeign
      refine ⟨List.mem_filter.mpr ⟨hj', decide_eq_true hne⟩, ?_⟩
      intro r hr
      refine List.mem_filter.trans ⟨And.left, fun h => ⟨h, decide_eq_true (hr ▸ hne)⟩⟩
    · intro sjId x ⟨r, hr, hs', hv⟩ hn
      exact absurd ⟨r, (List.mem_filter.mp hr).1, hs', hv⟩ hn

end Jobs

section Groups
variable {d : Db} {cloud : Ops} {u : ℕ} {ctx : Context} {id : ℕ}

/-- No volume of the group is another user's. -/
def OwnVolumes (d : Db) (cloud : Ops) (u g : ℕ) : Prop :=
  ∀ x, d.GroupVolume g x → d.foreignVolume cloud u x = false

theorem ownVolumes_iff {g : ℕ} : OwnVolumes d cloud u g ↔
    ∀ r ∈ d.groupRows g, d.foreignVolume cloud u r.volumeId = false := by
  simp only [OwnVolumes, Db.GroupVolume, Db.groupRows, List.mem_filter, decide_eq_true_eq,
    forall_exists_index, and_imp]
  exact ⟨fun h r hr hg => h r.volumeId r hr hg rfl, fun h x r hr hg hx => hx ▸ h r hr hg⟩

theorem visible_iff {group : Option VolumeGroup} (hctx : ctx.isAdmin = false) :
    VMController.visible ctx group = true ↔ ∃ g, group = some g ∧ g.userId = ctx.user.id := by
  simp [VMController.visible, hctx, Option.any_eq_true]

theorem isolated_getVolumeGroup (hctx : ctx.isAdmin = false) :
    Isolated d cloud ctx.user.id (VMController.getVolumeGroup ctx id) ↔
      ∀ g, d.getVolumeGroup id = some g → g.userId = ctx.user.id →
        OwnVolumes d cloud ctx.user.id g.id := by
  rw [VMController.getVolumeGroup, isolated_query_bind, isolated_raiseIf_bind,
    isolated_ofOption_bind, Bool.not_eq_false, visible_iff hctx]
  constructor
  · intro h g hg hown
    have hdict := h ⟨g, hg, hown⟩ g hg
    rw [VolumeGroupModel.toDict, isolated_query_bind, isolated_pure] at hdict
    exact ownVolumes_iff.mpr hdict.2
  · intro h ⟨g, hg, hown⟩ g' hg'
    rw [VolumeGroupModel.toDict, isolated_query_bind, isolated_pure]
    cases hg.symm.trans hg'
    exact ⟨hown, ownVolumes_iff.mp (h g hg hown)⟩

/-- What an update makes of a group. Without volumes, its own are returned. Otherwise those that
are stored join it; with a missing key the response is an error, and without one it has all
volumes of the group, to which the old ones still belong where the first new one is not stored. -/
def AttachesOwn (d : Db) (cloud : Ops) (u g : ℕ) : List VolumeArg → Prop
  | [] => OwnVolumes d cloud u g
  | v :: vs => v.complete = true →
    (∀ x ∈ d.stored g (v :: vs), ¬ d.GroupVolume g x → d.foreignVolume cloud u x = false) ∧
    ((∀ w ∈ v :: vs, w.complete = true) →
      (∀ x ∈ d.stored g (v :: vs), d.foreignVolume cloud u x = false) ∧
      (d.storable g v = false → OwnVolumes d cloud u g))

theorem Apart.putVolumeGroup {group : VolumeGroup}
    (hown : ∀ g ∈ d.volumeGroups, g.id = group.id → g.userId = u) :
    Apart d cloud u (d.putVolumeGroup group) := by
  have hrefl : Apart d cloud u d := .refl
  refine ⟨hrefl.versions, hrefl.jobs, ?_, hrefl.groupVolumes, hrefl.jobVolumes,
    hrefl.versionVolumes⟩
  intro g hg hforeign
  exact ⟨mem_mergeRow.mpr (.inr ⟨hg, fun hid => hforeign (hown g hg hid)⟩), fun _ _ => Iff.rfl⟩

/-- Only rows of a group of the user differ. -/
theorem Apart.of_sameOthers {group : VolumeGroup} {t : Db}
    (hown : ∀ g ∈ d.volumeGroups, g.id = group.id → g.userId = u)
    (hsame : SameOthers group.id (d.putVolumeGroup group) t)
    (hvolumes : ∀ x, t.GroupVolume group.id x → ¬ d.GroupVolume group.id x →
      d.foreignVolume cloud u x = false) : Apart d cloud u t := by
  have hput : Apart d cloud u (d.putVolumeGroup group) := .putVolumeGroup hown
  have hgroups : ∀ g ∈ d.volumeGroups, g.userId ≠ u → g ∈ t.volumeGroups ∧
      ∀ r : VolumeBackupGroup, r.groupId = g.id →
        (r ∈ t.volumeBackupGroups ↔ r ∈ d.volumeBackupGroups) := by
    intro g hg hforeign
    refine ⟨hsame.volumeGroups ▸ (hput.groups g hg hforeign).1, ?_⟩
    intro r hr
    exact hsame.rows r fun heq => hforeign (hown g hg (hr.symm.trans heq))
  have hjoined : ∀ g x, t.GroupVolume g x → ¬ d.GroupVolume g x →
      d.foreignVolume cloud u x = false := by
    intro g x hx hn
    by_cases hg : g = group.id
    · exact hvolumes x (hg ▸ hx) (hg ▸ hn)
    · obtain ⟨r, hr, hrg, hv⟩ := hx
      exact absurd ⟨r, (hsame.rows r (hrg ▸ hg)).mp hr, hrg, hv⟩ hn
  obtain ⟨rows, rfl⟩ := hsame.frame
  exact ⟨hput.versions, hput.jobs, hgroups, hjoined, hput.jobVolumes, hput.versionVolumes⟩

/-- A response with a group of the user. -/
theorem isolated_group_iff {group : VolumeGroup} {e : Db} (hown : group.userId = u) :
    (∀ resp, Except.ok (ε := Error) (Response.group group (e.groupRows group.id)) = .ok resp →
        resp.Isolated d cloud u) ↔
      ∀ x, e.GroupVolume group.id x → d.foreignVolume cloud u x = false := by
  have hrows : (∀ r ∈ e.groupRows group.id, d.foreignVolume cloud u r.volumeId = false) ↔
      ∀ x, e.GroupVolume group.id x → d.foreignVolume cloud u x = false := by
    simp only [Db.GroupVolume, Db.groupRows, List.mem_filter, decide_eq_true_eq,
      forall_exists_index, and_imp]
    exact ⟨fun h x r hr hg hx => hx ▸ h r hr hg, fun h r hr hg => h r.volumeId r hr hg rfl⟩
  rw [← hrows]
  constructor
  · intro h
    exact (h _ rfl).2
  · rintro h _ ⟨⟩
    exact ⟨hown, h⟩

section Update
variable {new : VolumeGroup} {t : Db} {v : VolumeArg} {vs : List VolumeArg}

/-- Apart from other users, where only stored volumes join the group. -/
theorem apart_iff (hown : ∀ g ∈ d.volumeGroups, g.id = new.id → g.userId = u)
    (hsame : SameOthers new.id (d.putVolumeGroup new) t)
    (hvolumes : ∀ x, t.GroupVolume new.id x ↔
      d.storable new.id v = false ∧ d.GroupVolume new.id x ∨ x ∈ d.stored new.id (v :: vs)) :
    Apart d cloud u t ↔ ∀ x ∈ d.stored new.id (v :: vs), ¬ d.GroupVolume new.id x →
      d.foreignVolume cloud u x = false := by
  constructor
  · intro h x hx hn
    exact h.groupVolumes new.id x ((hvolumes x).mpr (.inr hx)) hn
  · intro h
    refine .of_sameOthers hown hsame ?_
    intro x hx hn
    cases (hvolumes x).mp hx with
    | inl hold => exact absurd hold.2 hn
    | inr hstored => exact h x hstored hn

theorem finalVolumes_iff (hvolumes : ∀ x, t.GroupVolume new.id x ↔
      d.storable new.id v = false ∧ d.GroupVolume new.id x ∨ x ∈ d.stored new.id (v :: vs)) :
    (∀ x, t.GroupVolume new.id x → d.foreignVolume cloud u x = false) ↔
      (∀ x ∈ d.stored new.id (v :: vs), d.foreignVolume cloud u x = false) ∧
        (d.storable new.id v = false → OwnVolumes d cloud u new.id) := by
  constructor
  · intro h
    exact ⟨fun x hx => h x ((hvolumes x).mpr (.inr hx)),
      fun hs x hx => h x ((hvolumes x).mpr (.inl ⟨hs, hx⟩))⟩
  · intro h x hx
    cases (hvolumes x).mp hx with
    | inl hold => exact h.2 hold.1 x hold.2
    | inr hstored => exact h.1 x hstored

end Update

theorem isolated_updateGroup {req : UpdateVolumeGroup} {group : VolumeGroup} (hd : Keyed d)
    (hgroup : d.getVolumeGroup group.id = some group) (hown : group.userId = u) :
    Isolated d cloud u (VolumeGroupModel.update group.id req) ↔
      AttachesOwn d cloud u group.id req.volumes := by
  have hmem : group ∈ d.volumeGroups := List.mem_of_find?_eq_some hgroup
  let new := VolumeGroupModel.updated group req
  have hnewOwn : new.userId = u := hown
  have howner : ∀ g ∈ d.volumeGroups, g.id = new.id → g.userId = u := by
    intro g hg heq
    rw [List.inj_on_of_nodup_map hd.groups hg hmem heq]
    exact hown
  let q := d.putVolumeGroup new
  have hapart : Apart d cloud u q := .putVolumeGroup howner
  have heq := @update_eq group.id req group ⟨d, d⟩ hgroup
  have hdict {s : Session} : (VolumeGroupModel.toDict new).Returns s
      (.group new (s.pending.groupRows new.id)) s :=
    Proc.returns_bind.mpr ⟨_, _, returns_query.mpr ⟨rfl, rfl⟩, Proc.returns_pure.mpr ⟨rfl, rfl⟩⟩
  cases hv : req.volumes with
  | nil =>
    rw [hv] at heq
    rw [isolated_of_run (heq.trans hdict)]
    exact (and_iff_left hapart).trans (isolated_group_iff hnewOwn)
  | cons v vs =>
    rw [hv] at heq
    have hnew : ∃ G ∈ q.volumeGroups, G.id = new.id := ⟨new, mem_mergeRow.mpr (.inl rfl), rfl⟩
    cases hcomplete : v.complete with
    | false =>
      -- the old rows are deleted in a transaction that nobody commits
      obtain ⟨e, he⟩ := @raises_createRow new.id v false ⟨q, q.deleteGroupRows new.id⟩ hcomplete
      have hraises : (VolumeGroupModel.replaceRows new.id (v :: vs)).Raises ⟨q, q⟩ e
          ⟨q, q.deleteGroupRows new.id⟩ := by
        rw [VolumeGroupModel.replaceRows, if_neg (by simp)]
        exact Proc.raises_bind.mpr (.inr ⟨(), _, returns_execute, Proc.raises_bind.mpr (.inl he)⟩)
      rw [isolated_of_run (heq.trans (Proc.raises_bind.mpr (.inl hraises)))]
      constructor
      · intro _ hc
        exact absurd (hcomplete.symm.trans hc) (by simp)
      · intro _
        exact ⟨fun _ h => (by cases h), hapart⟩
    | true =>
      obtain ⟨r, t, hrun, hok, hsame, hvolumes⟩ := @run_replaceRows q new.id v vs hnew hcomplete
      rw [stored_putVolumeGroup] at hvolumes
      cases r with
      | ok a =>
        rw [isolated_of_run (heq.trans (Proc.returns_bind.mpr ⟨a, _, hrun, hdict⟩)),
          isolated_group_iff hnewOwn, finalVolumes_iff hvolumes, apart_iff howner hsame hvolumes]
        constructor
        · intro h _
          exact ⟨h.2, fun _ => h.1⟩
        · intro h
          exact ⟨(h hcomplete).2 (hok.mp rfl), (h hcomplete).1⟩
      | error e =>
        have hraises : (VolumeGroupModel.replaceRows new.id (v :: vs)).Raises ⟨q, q⟩ e ⟨t, t⟩ :=
          hrun
        rw [isolated_of_run (heq.trans (Proc.raises_bind.mpr (.inl hraises))),
          apart_iff howner hsame hvolumes]
        have hnot : ¬ ∀ w ∈ v :: vs, w.complete = true := mt hok.mpr (by simp)
        constructor
        · intro h _
          exact ⟨h.2, fun hc => absurd hc hnot⟩
        · intro h
          exact ⟨fun _ h => (by cases h), (h hcomplete).1⟩

theorem isolated_updateVolumeGroup {req : UpdateVolumeGroup} (hd : Keyed d)
    (hctx : ctx.isAdmin = false) :
    Isolated d cloud ctx.user.id (VMController.updateVolumeGroup ctx id req) ↔
      ∀ g, d.getVolumeGroup id = some g → g.userId = ctx.user.id →
        AttachesOwn d cloud ctx.user.id g.id req.volumes := by
  rw [VMController.updateVolumeGroup, isolated_query_bind, isolated_raiseIf_bind,
    isolated_ofOption_bind, Bool.not_eq_false, visible_iff hctx]
  have hfound (g : VolumeGroup) (hg : d.getVolumeGroup id = some g) :
      d.getVolumeGroup g.id = some g := by
    have hid : g.id = id := of_decide_eq_true (List.find?_some hg :)
    rw [hid]
    exact hg
  constructor
  · intro h g hg hown
    exact (isolated_updateGroup hd (hfound g hg) hown).mp (h ⟨g, hg, hown⟩ g hg)
  · intro h ⟨g, hg, hown⟩ g' hg'
    cases hg.symm.trans hg'
    exact (isolated_updateGroup hd (hfound g hg) hown).mpr (h g hg hown)

/-- No version is created, so nothing changes. -/
theorem keeps_createGroupBackup {storage : Option Storage} {groupId : ℕ} :
    (VMController.createGroupBackup storage groupId).Keeps fun s => s = ⟨d, d⟩ := by
  have hrow (row : VolumeBackupGroup) :
      (VMController.createBackup storage row).Keeps fun s => s = ⟨d, d⟩ := by
    refine Proc.Keeps.bind Proc.Keeps.ofOption fun _ => Proc.Keeps.bind ?_ fun _ => Proc.Keeps.pure
    rintro s r t ⟨⟩ rfl
    rfl
  have hquery : (query fun d => d.groupRows groupId).Keeps fun s => s = ⟨d, d⟩ := by
    rintro s r t ⟨⟩ hs
    exact hs
  exact Proc.Keeps.bind hquery fun rows => Proc.Keeps.forEach fun row _ => hrow row

theorem isolated_createVolumeBackupGroups {groups : List ℕ} :
    Isolated d cloud u (VMController.createVolumeBackupGroups ctx groups) := by
  rw [VMController.createVolumeBackupGroups, ScheduleJobModel.getStorage, isolated_lookup_bind]
  intro _ r t hrun
  have hkeeps : (Proc.forEach (VMController.createGroupBackup
      (d.storages.filter fun s => s.name = ctx.user.userName).head?) groups).Keeps
      fun s => s = ⟨d, d⟩ :=
    Proc.Keeps.forEach fun g _ => keeps_createGroupBackup
  cases r with
  | ok resp =>
    obtain ⟨a, s, hs, hrest⟩ := Proc.returns_bind.mp hrun
    have hsame : s = ⟨d, d⟩ := hkeeps hs rfl
    obtain ⟨_, s', hs', hpure⟩ := Proc.returns_bind.mp hrest
    obtain ⟨-, hss'⟩ := Proc.returns_raiseIf.mp hs'
    obtain ⟨hresp, ht⟩ := Proc.returns_pure.mp hpure
    have htd : t = ⟨d, d⟩ := ht.symm.trans (hss'.symm.trans hsame)
    rw [htd]
    refine ⟨?_, .refl⟩
    rintro _ ⟨⟩
    rw [← hresp]
    exact fun v hv => absurd hv List.not_mem_nil
  | error e =>
    have htd : t = ⟨d, d⟩ := by
      cases Proc.raises_bind.mp hrun with
      | inl h => exact hkeeps h rfl
      | inr h =>
        obtain ⟨a, s, hs, hrest⟩ := h
        have hsame : s = ⟨d, d⟩ := hkeeps hs rfl
        cases Proc.raises_bind.mp hrest with
        | inl h =>
          obtain ⟨-, -, hst⟩ := Proc.raises_raiseIf.mp h
          exact hst.symm.trans hsame
        | inr h =>
          obtain ⟨_, _, _, hpure⟩ := h
          exact absurd hpure Proc.raises_pure
    rw [htd]
    exact ⟨fun _ h => (by cases h), .refl⟩

end Groups

/-! ### All requests -/

/-- The requests of the services; `reachable` says whether the cloud could be connected to. -/
inductive TenantRequest
  | getVersion (id : ℕ)
  | listVersions (userName : Option String) (page pageSize : Option ℤ) (volumeId : String)
      (given : volumeId ≠ "")
  | restoreVersion (id : ℕ) (reachable sparse force wait : Bool)
  | patchVersion (id : ℕ) (isProtected : Option Bool) (labels : Option LabelChanges)
  | deleteVersion (id : ℕ) (force keepMetadataBackup overrideLock : Bool)
  | getScheduleJob (id : ℕ)
  | updateScheduleJob (id : ℕ) (req : UpdateScheduleJob)
  | deleteScheduleJob (id : ℕ)
  | getVolumeGroup (id : ℕ)
  | updateVolumeGroup (id : ℕ) (req : UpdateVolumeGroup)
  | backupVolumeGroups (groups : List ℕ)

namespace TenantRequest

/-- `answers` are the users that the database returns for a page of them. -/
def handler (ctx : Context) (cloud : Ops) (answers : ℕ → List User) :
    TenantRequest → Action Response
  | getVersion id => VersionController.getVersion id
  | listVersions userName page pageSize volumeId _ =>
    VersionController.listVersions ctx userName answers page pageSize volumeId
  | restoreVersion id reachable sparse force wait =>
    VersionController.restoreVersion ctx id (if reachable then some cloud else none)
      sparse force wait
  | patchVersion id isProtected labels => VersionController.patchVersion id isProtected labels
  | deleteVersion id force keepMetadataBackup overrideLock =>
    VersionController.deleteVersion id force keepMetadataBackup overrideLock
  | getScheduleJob id => ScheduleJobController.getScheduleJob id
  | updateScheduleJob id req => ScheduleJobController.updateScheduleJob ctx id req
  | deleteScheduleJob id => ScheduleJobController.deleteScheduleJob ctx id
  | getVolumeGroup id => VMController.getVolumeGroup ctx id
  | updateVolumeGroup id req => VMController.updateVolumeGroup ctx id req
  | backupVolumeGroups groups => VMController.createVolumeBackupGroups ctx groups

/-- The objects that a request names, and those that belong to them, are the caller's, where the
handler does not find that out. -/
def NamesOwn (ctx : Context) (cloud : Ops) (answers : ℕ → List User) (d : Db) :
    TenantRequest → Prop
  | getVersion id => ∀ v, d.getVersion id = some v → d.foreignVersion ctx.user.id v = false
  | listVersions userName page pageSize volumeId _ =>
    ((VersionController.usersQuery ctx userName d).dumpRawObject answers page pageSize).1 ≠ [] →
      ∀ v ∈ d.versions, v.volume = volumeId → d.foreignVersion ctx.user.id v = false
  | restoreVersion id reachable _ _ wait =>
    ∀ v, d.getVersion id = some v → v.status ≠ .incomplete →
      (∃ vm, d.getVm v.vmId = some vm ∧ vm.userId = ctx.user.id) → d.activeNode v = true →
      reachable = true → VersionController.otherSize cloud v = false → wait = false →
      d.foreignVolume cloud ctx.user.id v.volume = false
  | patchVersion id _ _ => ∀ v, d.getVersion id = some v → d.foreignVersion ctx.user.id v = false
  | deleteVersion id _ _ _ => ∀ v, d.getVersion id = some v → d.activeNode v = true →
    d.foreignVersion ctx.user.id v = false
  | getScheduleJob id => ∀ j, d.getScheduleJob id = some j → OwnJob d cloud ctx.user.id j
  | updateScheduleJob id req => ∀ j, d.getScheduleJob id = some j →
    updateAccepted ctx d j req = true → OwnJob d cloud ctx.user.id j
  | deleteScheduleJob _ => True
  | getVolumeGroup id => ∀ g, d.getVolumeGroup id = some g → g.userId = ctx.user.id →
    OwnVolumes d cloud ctx.user.id g.id
  | updateVolumeGroup id req => ∀ g, d.getVolumeGroup id = some g → g.userId = ctx.user.id →
    AttachesOwn d cloud ctx.user.id g.id req.volumes
  | backupVolumeGroups _ => True

end TenantRequest

/-- A request of a tenant keeps apart what belongs to others exactly when what it names is the
tenant's own; of the owners, the handlers check only a few. -/
theorem isolated_iff {d : Db} {cloud : Ops} {answers : ℕ → List User} {ctx : Context}
    {req : TenantRequest} (hd : Keyed d) (hctx : ctx.isAdmin = false) :
    Isolated d cloud ctx.user.id (req.handler ctx cloud answers) ↔
      req.NamesOwn ctx cloud answers d := by
  cases req with
  | getVersion id => exact isolated_getVersion
  | listVersions userName page pageSize volumeId _ => exact isolated_listVersions
  | restoreVersion id reachable sparse force wait =>
    have hops : ∀ o, (if reachable = true then some cloud else none) = some o → o = cloud := by
      intro o ho
      cases reachable with
      | false => cases ho
      | true => exact (Option.some.inj ho).symm
    refine (isolated_restoreVersion hctx hops).trans ?_
    cases reachable <;> simp [TenantRequest.NamesOwn]
  | patchVersion id isProtected labels => exact isolated_patchVersion hd
  | deleteVersion id force keep override => exact isolated_deleteVersion
  | getScheduleJob id => exact isolated_getScheduleJob
  | updateScheduleJob id req => exact isolated_updateScheduleJob hd hctx
  | deleteScheduleJob id => exact iff_of_true (isolated_deleteScheduleJob hd hctx) trivial
  | getVolumeGroup id => exact isolated_getVolumeGroup hctx
  | updateVolumeGroup id req => exact isolated_updateVolumeGroup hd hctx
  | backupVolumeGroups groups => exact iff_of_true isolated_createVolumeBackupGroups trivial

section Example

/-- Two tenants, with a version of the second one. -/
def tenants : Db where
  users := [⟨1, "alice"⟩, ⟨2, "bob"⟩]
  vms := [⟨1, "web", some "server-1", 1⟩, ⟨2, "db", some "server-2", 2⟩]
  nodes := [⟨1, "node", "localhost", 50051, false⟩]
  storages := [⟨1, "alice", 1, 1⟩, ⟨2, "bob", 2, 1⟩]
  volumeGroups := [⟨1, "group", none, 1⟩]
  volumeBackupGroups := [⟨1, "vol-1", none, 1⟩]
  scheduleJobs := []
  volumeScheduleJobs := []
  versions := [⟨1, "v1", "vol-1", none, 1, 1, 0, .valid, false, []⟩,
    ⟨2, "v2", "vol-2", none, 2, 2, 0, .valid, false, []⟩]

def cloudOfTenants : Ops where
  getVolumeById x :=
    if x = "vol-1" then some ⟨["server-1"], 0⟩
    else if x = "vol-2" then some ⟨["server-2"], 0⟩
    else none
  listVolumes _ := none

theorem keyed_tenants : Keyed tenants := ⟨by decide, by decide, by decide⟩

def alice : Context := ⟨⟨1, "alice"⟩, false⟩

/-- Alice deletes her version; Bob's is not hers to delete. -/
theorem isolated_iff_example :
    Isolated tenants cloudOfTenants 1
        ((TenantRequest.deleteVersion 1 true false false).handler alice cloudOfTenants
          fun _ => tenants.users) ∧
      ¬ Isolated tenants cloudOfTenants 1
        ((TenantRequest.deleteVersion 2 true false false).handler alice cloudOfTenants
          fun _ => tenants.users) := by
  constructor
  · refine (isolated_iff keyed_tenants rfl).mpr ?_
    intro v hv _
    cases hv
    decide
  · intro h
    have hown := (isolated_iff keyed_tenants rfl).mp h
    exact absurd (hown ⟨2, "v2", "vol-2", none, 2, 2, 0, .valid, false, []⟩ rfl (by decide))
      (by decide)

/-- Any tenant has a version of another one deleted. -/
theorem deletes_foreign_version :
    ¬ ∀ (d : Db) (cloud : Ops) (answers : ℕ → List User) (ctx : Context) (req : TenantRequest),
      Keyed d → ctx.isAdmin = false →
      Isolated d cloud ctx.user.id (req.handler ctx cloud answers) := by
  intro h
  have hdelete := h tenants cloudOfTenants (fun _ => tenants.users) alice
    (.deleteVersion 2 true false false) keyed_tenants rfl
  have hrun : (TenantRequest.deleteVersion 2 true false false).handler alice cloudOfTenants
      (fun _ => tenants.users) ⟨tenants, tenants⟩ =
        some (.ok (.started (.delete "localhost" 50051 2 true false false)),
          ⟨tenants, tenants⟩) := by
    decide +kernel
  have hresp := (hdelete _ _ hrun).1 _ rfl
  exact absurd (hresp ⟨2, "v2", "vol-2", none, 2, 2, 0, .valid, false, []⟩ rfl) (by decide)

end Example

end Benji.Services

import Benji.World
import Benji.Schedule.Tick

/-! `run_schedule_job` after its queries: the backups that a tick starts for the jobs it selected,
and which of them a failure takes along. -/
namespace Benji.Schedule.Run
open Lib

structure StorageRow where
  id : ℕ
  diskUsed : Option ℤ
  diskAllowed : Option ℤ
  host : String
  port : ℕ

structure Job extends ScheduleJob where
  name : Option String
  retention : ℤ

/-- A row of `volume_schedule_job`. -/
structure JobVolume where
  volumeId : String
  volumeName : Option String
  vmId : ℕ

structure NewVersion where
  id : ℕ
  uid : String
  volume : String
  vmId : ℕ
  volumeName : Option String
  jobName : Option String
  snapshot : String
  size : ℕ
  blockSize : ℕ
  storageId : ℕ
  expiredAt : Option ℤ
  status : VersionStatus
  isProtected : Bool

/-- A task in the queue of the broker. -/
structure Dispatched where
  host : String
  port : ℕ
  versionId : ℕ
  source : String
  baseVersionUid : Option String

structure State where
  locks : Table Lock.lockName
  nextId : ℕ
  versions : List NewVersion := []
  dispatched : List Dispatched := []

/-- The storage of the job as it reads at the turn of a volume, and what fails there. -/
structure Env where
  me : Process
  storage : Job → JobVolume → StorageRow
  uid : Job → JobVolume → String
  creatable : Job → JobVolume → Bool
  dispatches : Job → JobVolume → Bool
  doCheckGfs : ℤ → Option ℤ

/-- What a tick selects, with the keys of the two tables. -/
structure Selected where
  jobs : List Job
  volumes : Job → List JobVolume
  jobs_nodup : jobs.Nodup
  volumes_nodup : ((jobs.flatMap volumes).map JobVolume.volumeId).Nodup

abbrev Action (α : Type) := Proc Error State α

def lockName (job : Job) : String := s!"ScheduleJob {job.id}"

def reason (job : Job) : String := "Running backup for job " ++ job.name.getD "None"

def lock (me : Process) (job : Job) : Action Unit := do
  let s ← Proc.get
  let held := s.locks.find? (lockName job)
  Proc.raiseIf (held.any fun l => l.owner = me)
    (.internalError s!"Attempt to acquire lock {lockName job} twice.")
  Proc.raiseIf held.isSome (.alreadyLocked s!"Lock {lockName job} is already taken.")
  Proc.modify fun s => { s with locks := s.locks.put ⟨lockName job, me, reason job⟩ }

def unlock (me : Process) (job : Job) : Action Unit := do
  let s ← Proc.get
  Proc.raiseIf (¬ (s.locks.find? (lockName job)).any fun l => l.owner = me)
    (Locking.notHeld (lockName job))
  Proc.modify fun s => { s with locks := s.locks.erase (lockName job) }

/-- `unlock_all`, when the session is closed. -/
def unlockAll (me : Process) (s : State) : State :=
  { s with locks := s.locks.filter fun l => l.owner ≠ me }

/-- `disk_used >= disk_allowed`; `none` is the `TypeError` for a value that is NULL. -/
def overQuota (storage : StorageRow) : Option Bool := do
  return decide ((← storage.diskAllowed) ≤ (← storage.diskUsed))

def sourceOf (volume : JobVolume) : String := "rbd:volumes/volume-" ++ volume.volumeId

def newVersion (E : Env) (job : Job) (volume : JobVolume) (id : ℕ) : NewVersion where
  id := id
  uid := E.uid job volume
  volume := volume.volumeId
  vmId := volume.vmId
  volumeName := volume.volumeName
  jobName := job.name
  snapshot := ""
  size := 0
  blockSize := 0
  storageId := (E.storage job volume).id
  expiredAt := if job.retention = 0 then none else E.doCheckGfs job.retention
  status := .incomplete
  isProtected := false

def create (E : Env) (job : Job) (volume : JobVolume) (s : State) : State := { s with
  nextId := s.nextId + 1
  versions := s.versions ++ [newVersion E job volume s.nextId] }

def newTask (E : Env) (job : Job) (volume : JobVolume) (versionId : ℕ) : Dispatched where
  host := (E.storage job volume).host
  port := (E.storage job volume).port
  versionId := versionId
  source := sourceOf volume
  baseVersionUid := none

def dispatch (E : Env) (job : Job) (volume : JobVolume) (versionId : ℕ) (s : State) : State :=
  { s with dispatched := s.dispatched ++ [newTask E job volume versionId] }

def unboundLocalError : Error := .other "local variable 'e' referenced before assignment"

def operationalError : Error := .other "OperationalError"

/-- The inner loop. The branch for a row that was not created logs a variable that is not bound,
`e` where the error is called `err`. -/
def backUp (E : Env) (job : Job) (volume : JobVolume) : Action Unit := do
  let full ← Proc.ofOption (overQuota (E.storage job volume)) .typeError
  if full then pure ()
  else do
    Proc.raiseIf (E.creatable job volume = false) unboundLocalError
    let s ← Proc.get
    Proc.modify (create E job volume)
    Proc.raiseIf (E.dispatches job volume = false) operationalError
    Proc.modify (dispatch E job volume s.nextId)

def runJob (E : Env) (S : Selected) (job : Job) : Action Unit :=
  if (S.volumes job).isEmpty then pure ()
  else do
    lock E.me job
    Proc.tryFinally
      (Proc.tryExcept (Proc.forEach (backUp E job) (S.volumes job)) fun _ => pure ())
      (unlock E.me job)

def runScheduleJob (E : Env) (S : Selected) : Action Unit :=
  Proc.tryFinally (Proc.forEach (runJob E S) S.jobs) (Proc.modify (unlockAll E.me))

/-! ### What a failure takes along -/

section
variable (E : Env) (S : Selected) (locks : Table Lock.lockName)

/-- The job cannot be locked. -/
def Blocked (job : Job) : Prop := (locks.find? (lockName job)).isSome = true

/-- Nothing fails at the turn of the volume. -/
def Fine (job : Job) (volume : JobVolume) : Prop :=
  overQuota (E.storage job volume) = some false ∧ E.creatable job volume = true ∧
    E.dispatches job volume = true

/-- An exception ends the loop over the volumes of the job. -/
def Stops (job : Job) (volume : JobVolume) : Prop :=
  overQuota (E.storage job volume) = none ∨
    overQuota (E.storage job volume) = some false ∧
      (E.creatable job volume = false ∨ E.dispatches job volume = false)

/-- One version row and one backup that is dispatched for it. -/
def Served (s : State) (volume : JobVolume) : Prop :=
  ∃ row task, (s.versions.filter fun r => r.volume = volume.volumeId) = [row] ∧
    (s.dispatched.filter fun d => d.source = sourceOf volume) = [task] ∧ task.versionId = row.id

/-- What the tick is to do for all volumes that no failure hits. -/
def Isolated (s t : State) : Prop :=
  (∀ job ∈ S.jobs, ¬ Blocked s.locks job → ∀ volume ∈ S.volumes job, Fine E job volume →
    Served t volume) ∧
  ∀ l, l ∈ t.locks ↔ l ∈ s.locks ∧ l.owner ≠ E.me

end

variable {E : Env} {S : Selected} {s t : State} {job : Job} {volume other : JobVolume}

def rowsOf (s : State) (volume : JobVolume) : List NewVersion :=
  s.versions.filter fun r => r.volume = volume.volumeId

def tasksOf (s : State) (volume : JobVolume) : List Dispatched :=
  s.dispatched.filter fun d => d.source = sourceOf volume

/-- Nothing has happened to the volume in between. -/
structure Untouched (volume : JobVolume) (s t : State) : Prop where
  rows : rowsOf t volume = rowsOf s volume
  tasks : tasksOf t volume = tasksOf s volume

structure Fresh (s : State) (volume : JobVolume) : Prop where
  rows : rowsOf s volume = []
  tasks : tasksOf s volume = []

theorem Untouched.trans {u : State} (h : Untouched volume s t) (k : Untouched volume t u) :
    Untouched volume s u := ⟨k.rows.trans h.rows, k.tasks.trans h.tasks⟩

theorem Untouched.served (h : Untouched volume s t) : Served t volume ↔ Served s volume := by
  obtain ⟨hrows, htasks⟩ := h
  unfold rowsOf at hrows
  unfold tasksOf at htasks
  unfold Served
  rw [hrows, htasks]

theorem Untouched.fresh (h : Untouched volume s t) (hs : Fresh s volume) : Fresh t volume :=
  ⟨h.rows.trans hs.rows, h.tasks.trans hs.tasks⟩

theorem Fresh.not_served (h : Fresh s volume) : ¬ Served s volume := by
  rintro ⟨row, task, hrows, -⟩
  have hnil := h.rows
  unfold rowsOf at hnil
  rw [hnil] at hrows
  cases hrows

theorem sourceOf_inj (h : sourceOf volume = sourceOf other) :
    volume.volumeId = other.volumeId := by
  unfold sourceOf at h
  exact (String.append_right_inj _).mp h

theorem untouched_create (h : volume.volumeId ≠ other.volumeId) :
    Untouched other s (create E job volume s) where
  rows := by
    have hne : (newVersion E job volume s.nextId).volume ≠ other.volumeId := h
    unfold rowsOf create
    dsimp only
    rw [List.filter_append, List.filter_singleton, decide_eq_false hne]
    exact List.append_nil _
  tasks := rfl

theorem untouched_dispatch (h : volume.volumeId ≠ other.volumeId) {versionId : ℕ} :
    Untouched other s (dispatch E job volume versionId s) where
  rows := rfl
  tasks := by
    have hne : (newTask E job volume versionId).source ≠ sourceOf other :=
      fun heq => h (sourceOf_inj heq)
    unfold tasksOf dispatch
    dsimp only
    rw [List.filter_append, List.filter_singleton, decide_eq_false hne]
    exact List.append_nil _

theorem served_dispatch (h : Fresh s volume) :
    Served (dispatch E job volume s.nextId (create E job volume s)) volume := by
  obtain ⟨hrows, htasks⟩ := h
  unfold rowsOf at hrows
  unfold tasksOf at htasks
  refine ⟨newVersion E job volume s.nextId, newTask E job volume s.nextId, ?_, ?_, ?_⟩
  · have heq : (newVersion E job volume s.nextId).volume = volume.volumeId := rfl
    unfold dispatch create
    dsimp only
    rw [List.filter_append, List.filter_singleton, hrows, decide_eq_true heq]
    rfl
  · unfold dispatch create
    dsimp only
    have heq : (newTask E job volume s.nextId).source = sourceOf volume := rfl
    rw [List.filter_append, List.filter_singleton, htasks, decide_eq_true heq]
    rfl
  · rfl

/-- What one round of the inner loop does. -/
theorem backUp_cases (E : Env) (job : Job) (volume : JobVolume) (s : State) :
    (Stops E job volume ∧ ∃ e t, backUp E job volume s = some (.error e, t) ∧
      (t = s ∨ t = create E job volume s)) ∨
    (¬ Stops E job volume ∧ ¬ Fine E job volume ∧ backUp E job volume s = some (.ok (), s)) ∨
    (¬ Stops E job volume ∧ Fine E job volume ∧ backUp E job volume s =
      some (.ok (), dispatch E job volume s.nextId (create E job volume s))) := by
  cases hover : overQuota (E.storage job volume) with
  | none =>
    refine .inl ⟨.inl hover, .typeError, s, ?_, .inl rfl⟩
    unfold backUp
    rw [hover]
    rfl
  | some full =>
    cases full with
    | true =>
      refine .inr (.inl ⟨?_, ?_, ?_⟩)
      · unfold Stops
        rw [hover]
        simp
      · unfold Fine
        rw [hover]
        simp
      · unfold backUp
        rw [hover]
        rfl
    | false =>
      have hbackUp : backUp E job volume s =
          (Proc.raiseIf (E.creatable job volume = false) unboundLocalError >>= fun _ =>
            Proc.get >>= fun s => Proc.modify (create E job volume) >>= fun _ =>
              Proc.raiseIf (E.dispatches job volume = false) operationalError >>=
                fun _ => Proc.modify (dispatch E job volume s.nextId) : Action Unit) s := by
        unfold backUp
        rw [hover]
        rfl
      cases hcreate : E.creatable job volume with
      | false =>
        refine .inl ⟨.inr ⟨hover, .inl hcreate⟩, unboundLocalError, s, ?_, .inl rfl⟩
        rw [hbackUp, hcreate]
        rfl
      | true =>
        cases hdispatch : E.dispatches job volume with
        | false =>
          refine .inl ⟨.inr ⟨hover, .inr hdispatch⟩, operationalError, create E job volume s, ?_,
            .inr rfl⟩
          rw [hbackUp, hcreate, hdispatch]
          rfl
        | true =>
          refine .inr (.inr ⟨?_, ⟨hover, hcreate, hdispatch⟩, ?_⟩)
          · unfold Stops
            rw [hover, hcreate, hdispatch]
            simp
          · rw [hbackUp, hcreate, hdispatch]
            rfl

theorem Stops.not_fine (h : Stops E job volume) : ¬ Fine E job volume := by
  rintro ⟨hover, hcreate, hdispatch⟩
  unfold Stops at h
  rw [hover, hcreate, hdispatch] at h
  simp at h

/-- The loop over the volumes of a job. -/
theorem forEach_backUp (E : Env) (job : Job) {volumes : List JobVolume}
    (hn : (volumes.map JobVolume.volumeId).Nodup) (s : State)
    (hs : ∀ volume ∈ volumes, Fresh s volume) :
    ∃ r t, Proc.forEach (backUp E job) volumes s = some (r, t) ∧ t.locks = s.locks ∧
      (∀ other : JobVolume, other.volumeId ∉ volumes.map JobVolume.volumeId →
        Untouched other s t) ∧
      ((∀ volume ∈ volumes, Fine E job volume → Served t volume) ↔
        volumes.Pairwise fun volume later => Stops E job volume → ¬ Fine E job later) := by
  induction volumes generalizing s with
  | nil => exact ⟨.ok (), s, rfl, rfl, fun _ _ => ⟨rfl, rfl⟩, by simp⟩
  | cons v volumes ih =>
    obtain ⟨hv, hn⟩ := List.nodup_cons.mp hn
    have hlater (u : JobVolume) (hu : u ∈ volumes) : v.volumeId ≠ u.volumeId :=
      fun heq => hv (List.mem_map.mpr ⟨u, hu, heq.symm⟩)
    have hother (other : JobVolume)
        (h : other.volumeId ∉ (v :: volumes).map JobVolume.volumeId) :
        v.volumeId ≠ other.volumeId ∧ other.volumeId ∉ volumes.map JobVolume.volumeId := by
      rw [List.map_cons, List.mem_cons, not_or] at h
      exact ⟨Ne.symm h.1, h.2⟩
    rcases backUp_cases E job v s with ⟨hstops, e, t, hrun, ht⟩ | ⟨hstops, hfine, hrun⟩ |
      ⟨hstops, hfine, hrun⟩
    · have huntouched (other : JobVolume) (h : v.volumeId ≠ other.volumeId) :
          Untouched other s t := by
        cases ht with
        | inl ht => exact ht ▸ ⟨rfl, rfl⟩
        | inr ht => exact ht ▸ untouched_create h
      have hlocks : t.locks = s.locks := by
        cases ht with
        | inl ht => rw [ht]
        | inr ht =>
          rw [ht]
          rfl
      refine ⟨.error e, t, Proc.forEach_cons_error hrun, hlocks,
        fun other h => huntouched other (hother other h).1, ?_⟩
      have hnot (u : JobVolume) (hu : u ∈ volumes) : ¬ Served t u :=
        ((huntouched u (hlater u hu)).fresh (hs u (List.mem_cons_of_mem _ hu))).not_served
      rw [List.forall_mem_cons, List.pairwise_cons]
      constructor
      · rintro ⟨-, hall⟩
        have hnone (u : JobVolume) (hu : u ∈ volumes) : ¬ Fine E job u :=
          fun hfine => hnot u hu (hall u hu hfine)
        exact ⟨fun u hu _ => hnone u hu,
          List.pairwise_iff_forall_sublist.mpr fun hsub _ =>
            hnone _ (hsub.subset (List.mem_cons_of_mem _ List.mem_cons_self))⟩
      · rintro ⟨hnone, -⟩
        exact ⟨fun hfine => absurd hfine hstops.not_fine,
          fun u hu hfine => absurd hfine (hnone u hu hstops)⟩
    · obtain ⟨r, t, hrest, hlocks, huntouched, hiff⟩ :=
        ih hn s fun u hu => hs u (List.mem_cons_of_mem _ hu)
      refine ⟨r, t, (Proc.forEach_cons_ok hrun).trans hrest, hlocks,
        fun other h => huntouched other (hother other h).2, ?_⟩
      rw [List.forall_mem_cons, List.pairwise_cons, hiff]
      constructor
      · rintro ⟨-, hpairwise⟩
        exact ⟨fun _ _ h => absurd h hstops, hpairwise⟩
      · rintro ⟨-, hpairwise⟩
        exact ⟨fun h => absurd h hfine, hpairwise⟩
    · have hdone (other : JobVolume) (h : v.volumeId ≠ other.volumeId) :
          Untouched other s (dispatch E job v s.nextId (create E job v s)) :=
        (untouched_create h).trans (untouched_dispatch h)
      have hserved : Served (dispatch E job v s.nextId (create E job v s)) v :=
        served_dispatch (hs v List.mem_cons_self)
      obtain ⟨r, t, hrest, hlocks, huntouched, hiff⟩ :=
        ih hn (dispatch E job v s.nextId (create E job v s)) fun u hu =>
          (hdone u (hlater u hu)).fresh (hs u (List.mem_cons_of_mem _ hu))
      refine ⟨r, t, (Proc.forEach_cons_ok hrun).trans hrest, hlocks,
        fun other h => (hdone other (hother other h).1).trans
          (huntouched other (hother other h).2), ?_⟩
      rw [List.forall_mem_cons, List.pairwise_cons, hiff]
      constructor
      · rintro ⟨-, hpairwise⟩
        exact ⟨fun _ _ h => absurd h hstops, hpairwise⟩
      · rintro ⟨-, hpairwise⟩
        exact ⟨fun _ => (huntouched v hv).served.mpr hserved, hpairwise⟩

/-- No volume is left behind by an earlier one of its job. -/
def Complete (E : Env) (S : Selected) (job : Job) : Prop :=
  (S.volumes job).Pairwise fun volume later => Stops E job volume → ¬ Fine E job later

def ServedAll (E : Env) (S : Selected) (t : State) (job : Job) : Prop :=
  ∀ volume ∈ S.volumes job, Fine E job volume → Served t volume

theorem lock_of_free (h : s.locks.find? (lockName job) = none) (me : Process) :
    lock me job s =
      some (.ok (), { s with locks := s.locks.put ⟨lockName job, me, reason job⟩ }) := by
  have hlock : lock me job s = (do
      Proc.raiseIf ((s.locks.find? (lockName job)).any (fun l => l.owner = me) = true)
        (.internalError s!"Attempt to acquire lock {lockName job} twice.")
      Proc.raiseIf ((s.locks.find? (lockName job)).isSome = true)
        (.alreadyLocked s!"Lock {lockName job} is already taken.")
      Proc.modify fun s => { s with locks := s.locks.put ⟨lockName job, me, reason job⟩ } :
        Action Unit) s := rfl
  rw [hlock, h]
  rfl

theorem lock_of_blocked (h : Blocked s.locks job) (me : Process) :
    ∃ e, lock me job s = some (.error e, s) := by
  obtain ⟨l, hl⟩ := Option.isSome_iff_exists.mp h
  have hlock : lock me job s = (do
      Proc.raiseIf ((s.locks.find? (lockName job)).any (fun l => l.owner = me) = true)
        (.internalError s!"Attempt to acquire lock {lockName job} twice.")
      Proc.raiseIf ((s.locks.find? (lockName job)).isSome = true)
        (.alreadyLocked s!"Lock {lockName job} is already taken.")
      Proc.modify fun s => { s with locks := s.locks.put ⟨lockName job, me, reason job⟩ } :
        Action Unit) s := rfl
  rw [hlock, hl]
  by_cases hown : l.owner = me
  · refine ⟨.internalError s!"Attempt to acquire lock {lockName job} twice.", ?_⟩
    have htrue : (some l).any (fun l => l.owner = me) = true := decide_eq_true hown
    rw [htrue]
    rfl
  · refine ⟨.alreadyLocked s!"Lock {lockName job} is already taken.", ?_⟩
    have hfalse : (some l).any (fun l => l.owner = me) = false := decide_eq_false hown
    rw [hfalse]
    rfl

theorem unlock_of_held {l : Lock} {me : Process} (h : s.locks.find? (lockName job) = some l)
    (hown : l.owner = me) :
    unlock me job s = some (.ok (), { s with locks := s.locks.erase (lockName job) }) := by
  have hunlock : unlock me job s = (do
      Proc.raiseIf (¬ (s.locks.find? (lockName job)).any (fun l => l.owner = me) = true)
        (Locking.notHeld (lockName job))
      Proc.modify fun s => { s with locks := s.locks.erase (lockName job) } :
        Action Unit) s := rfl
  have htrue : (some l).any (fun l => l.owner = me) = true := decide_eq_true hown
  rw [hunlock, h, htrue]
  rfl

/-- A job is either blocked, which ends the tick, or run under its lock. -/
theorem runJob_cases (E : Env) (S : Selected) (hjob : job ∈ S.jobs) (s : State)
    (hs : ∀ volume ∈ S.volumes job, Fresh s volume) :
    (Blocked s.locks job ∧ S.volumes job ≠ [] ∧ ∃ e, runJob E S job s = some (.error e, s)) ∨
    ((Blocked s.locks job → S.volumes job = []) ∧ ∃ t, runJob E S job s = some (.ok (), t) ∧
      t.locks = s.locks ∧
      (∀ other : JobVolume, other.volumeId ∉ (S.volumes job).map JobVolume.volumeId →
        Untouched other s t) ∧ (ServedAll E S t job ↔ Complete E S job)) := by
  by_cases hempty : S.volumes job = []
  · refine .inr ⟨fun _ => hempty, s, ?_, rfl, fun _ _ => ⟨rfl, rfl⟩, ?_⟩
    · unfold runJob
      rw [hempty]
      rfl
    · unfold ServedAll Complete
      rw [hempty]
      simp
  · have hrun : runJob E S job = (do
        lock E.me job
        Proc.tryFinally
          (Proc.tryExcept (Proc.forEach (backUp E job) (S.volumes job)) fun _ => pure ())
          (unlock E.me job) : Action Unit) := by
      unfold runJob
      rw [if_neg (by simpa using hempty)]
    by_cases hblocked : Blocked s.locks job
    · obtain ⟨e, he⟩ := lock_of_blocked hblocked E.me
      refine .inl ⟨hblocked, hempty, e, ?_⟩
      rw [hrun]
      change Proc.andThen (lock E.me job) _ s = _
      unfold Proc.andThen
      rw [he]
    · have hfree : s.locks.find? (lockName job) = none := by
        unfold Blocked at hblocked
        simpa using hblocked
      have hn : ((S.volumes job).map JobVolume.volumeId).Nodup := by
        refine S.volumes_nodup.sublist (List.Sublist.map _ ?_)
        rw [List.flatMap_def]
        exact List.sublist_flatten_of_mem (List.mem_map.mpr ⟨job, hjob, rfl⟩)
      obtain ⟨r, t, hloop, hlocks, huntouched, hiff⟩ := forEach_backUp E job hn
        { s with locks := s.locks.put ⟨lockName job, E.me, reason job⟩ }
        fun volume hv => ⟨(hs volume hv).rows, (hs volume hv).tasks⟩
      have hheld : t.locks.find? (lockName job) = some ⟨lockName job, E.me, reason job⟩ := by
        rw [hlocks]
        exact Table.find?_put_self
      have htry : Proc.tryExcept (Proc.forEach (backUp E job) (S.volumes job))
          (fun _ => pure ()) { s with locks := s.locks.put ⟨lockName job, E.me, reason job⟩ } =
          some (.ok (), t) := by
        unfold Proc.tryExcept
        rw [hloop]
        cases r <;> rfl
      refine .inr ⟨fun h => absurd h hblocked,
        { t with locks := t.locks.erase (lockName job) }, ?_, ?_, ?_, ?_⟩
      · rw [hrun, Proc.Returns.bind_eq (lock_of_free hfree E.me)]
        unfold Proc.tryFinally
        rw [htry]
        dsimp only
        rw [unlock_of_held hheld rfl]
      · dsimp only
        rw [hlocks]
        exact Table.erase_put hfree
      · intro other hother
        exact ⟨(huntouched other hother).rows, (huntouched other hother).tasks⟩
      · exact hiff

/-- A blocked job has only failing ones after it. -/
def Tolerated (E : Env) (S : Selected) (locks : Table Lock.lockName) (job later : Job) : Prop :=
  Blocked locks job → S.volumes job ≠ [] → ¬ Blocked locks later →
    ∀ volume ∈ S.volumes later, ¬ Fine E later volume

/-- The loop over the jobs. -/
theorem forEach_runJob (E : Env) (S : Selected) {jobs : List Job} (hjobs : jobs ⊆ S.jobs)
    (hdisjoint : jobs.Pairwise fun job later => ∀ volume ∈ S.volumes job,
      volume.volumeId ∉ (S.volumes later).map JobVolume.volumeId) (s : State)
    (hs : ∀ job ∈ jobs, ∀ volume ∈ S.volumes job, Fresh s volume) :
    ∃ r t, Proc.forEach (runJob E S) jobs s = some (r, t) ∧ t.locks = s.locks ∧
      (∀ other : JobVolume,
        (∀ job ∈ jobs, other.volumeId ∉ (S.volumes job).map JobVolume.volumeId) →
          Untouched other s t) ∧
      ((∀ job ∈ jobs, ¬ Blocked s.locks job → ServedAll E S t job) ↔
        jobs.Pairwise (Tolerated E S s.locks) ∧
          ∀ job ∈ jobs, ¬ Blocked s.locks job → Complete E S job) := by
  induction jobs generalizing s with
  | nil => exact ⟨.ok (), s, rfl, rfl, fun _ _ => ⟨rfl, rfl⟩, by simp⟩
  | cons j jobs ih =>
    obtain ⟨hj, hdisjoint⟩ := List.pairwise_cons.mp hdisjoint
    have hjmem : j ∈ S.jobs := hjobs List.mem_cons_self
    have hfresh := hs j List.mem_cons_self
    rcases runJob_cases E S hjmem s hfresh with ⟨hblocked, hne, e, hrun⟩ |
      ⟨hblocked, t₁, hrun, hlocks, huntouched, hserved⟩
    · refine ⟨.error e, s, Proc.forEach_cons_error hrun, rfl, fun _ _ => ⟨rfl, rfl⟩, ?_⟩
      rw [List.forall_mem_cons, List.forall_mem_cons, List.pairwise_cons]
      constructor
      · rintro ⟨-, hall⟩
        have hnone (later : Job) (hl : later ∈ jobs) (hb : ¬ Blocked s.locks later) :
            ∀ volume ∈ S.volumes later, ¬ Fine E later volume := fun volume hv hfine =>
          (hs later (List.mem_cons_of_mem _ hl) volume hv).not_served
            (hall later hl hb volume hv hfine)
        refine ⟨⟨fun later hl _ _ hb => hnone later hl hb, ?_⟩,
          fun hb => absurd hblocked hb, ?_⟩
        · exact List.pairwise_iff_forall_sublist.mpr fun hsub _ _ hb =>
            hnone _ (hsub.subset (List.mem_cons_of_mem _ List.mem_cons_self)) hb
        · intro later hl hb
          exact List.pairwise_iff_forall_sublist.mpr fun hsub _ =>
            hnone later hl hb _ (hsub.subset (List.mem_cons_of_mem _ List.mem_cons_self))
      · rintro ⟨⟨hnone, -⟩, -⟩
        exact ⟨fun hb => absurd hblocked hb, fun later hl hb volume hv hfine =>
          absurd hfine (hnone later hl hblocked hne hb volume hv)⟩
    · have hs₁ : ∀ job ∈ jobs, ∀ volume ∈ S.volumes job, Fresh t₁ volume := by
        intro later hl volume hv
        refine (huntouched volume fun hmem => ?_).fresh
          (hs later (List.mem_cons_of_mem _ hl) volume hv)
        obtain ⟨v, hvj, heq⟩ := List.mem_map.mp hmem
        exact hj later hl v hvj (List.mem_map.mpr ⟨volume, hv, heq.symm⟩)
      obtain ⟨r, t, hrest, hlocks', huntouched', hiff⟩ :=
        ih (List.subset_of_cons_subset hjobs) hdisjoint t₁ hs₁
      rw [hlocks] at hlocks' hiff
      have hkept : ServedAll E S t j ↔ ServedAll E S t₁ j := by
        refine forall_congr' fun volume => forall_congr' fun hv => forall_congr' fun _ => ?_
        exact (huntouched' volume fun later hl => hj later hl volume hv).served
      refine ⟨r, t, (Proc.forEach_cons_ok hrun).trans hrest, hlocks', ?_, ?_⟩
      · intro other hother
        rw [List.forall_mem_cons] at hother
        exact (huntouched other hother.1).trans (huntouched' other hother.2)
      · rw [List.forall_mem_cons, List.forall_mem_cons, List.pairwise_cons, hiff, hkept, hserved]
        constructor
        · rintro ⟨hcomplete, hpairwise, hall⟩
          exact ⟨⟨fun _ _ hb hne => absurd (hblocked hb) hne, hpairwise⟩, hcomplete, hall⟩
        · rintro ⟨⟨-, hpairwise⟩, hcomplete, hall⟩
          exact ⟨hcomplete, hpairwise, hall⟩

/-- A tick serves all volumes that no failure hits exactly when none of them comes after a failure
that ends one of the loops. -/
theorem tick_isolates_iff (E : Env) (S : Selected) (locks : Table Lock.lockName) (nextId : ℕ) :
    (∃ r t, runScheduleJob E S ⟨locks, nextId, [], []⟩ = some (r, t) ∧
      Isolated E S ⟨locks, nextId, [], []⟩ t) ↔
    S.jobs.Pairwise (Tolerated E S locks) ∧
      ∀ job ∈ S.jobs, ¬ Blocked locks job → Complete E S job := by
  have hnodup := S.volumes_nodup
  rw [List.map_flatMap, List.nodup_flatMap] at hnodup
  have hdisjoint : S.jobs.Pairwise fun job later => ∀ volume ∈ S.volumes job,
      volume.volumeId ∉ (S.volumes later).map JobVolume.volumeId :=
    hnodup.2.imp fun hd volume hv hmem =>
      hd (List.mem_map.mpr ⟨volume, hv, rfl⟩) hmem
  obtain ⟨r, t, hrun, hlocks, -, hiff⟩ := forEach_runJob E S (List.Subset.refl S.jobs) hdisjoint
    ⟨locks, nextId, [], []⟩ fun _ _ _ _ => ⟨rfl, rfl⟩
  have hlocks : t.locks = locks := hlocks
  have hall : runScheduleJob E S ⟨locks, nextId, [], []⟩ = some (r, unlockAll E.me t) := by
    unfold runScheduleJob Proc.tryFinally
    rw [hrun]
    rfl
  have hreleased : ∀ l, l ∈ (unlockAll E.me t).locks ↔ l ∈ locks ∧ l.owner ≠ E.me := by
    intro l
    unfold unlockAll
    rw [hlocks, Table.mem_filter]
    simp
  rw [← hiff, hall]
  constructor
  · rintro ⟨r', t', heq, hisolated, -⟩
    cases heq
    exact hisolated
  · intro hserved
    exact ⟨r, unlockAll E.me t, rfl, hserved, hreleased⟩

section Example

def nightlyJob : Job := ⟨⟨1, 1200, "mon"⟩, some "nightly", 5⟩

def nightly : Selected where
  jobs := [nightlyJob]
  volumes _ := [⟨"a", none, 1⟩, ⟨"b", none, 1⟩]
  jobs_nodup := List.nodup_singleton _
  volumes_nodup := by decide

/-- The row of volume `a` cannot be created, and nothing else fails. -/
def rejecting : Env where
  me := ⟨"host", "1"⟩
  storage _ _ := ⟨1, some 0, some 100, "node", 50051⟩
  uid _ volume := volume.volumeId
  creatable _ volume := volume.volumeId ≠ "a"
  dispatches _ _ := true
  doCheckGfs _ := none

theorem second_volume_is_lost : ¬ ∃ r t, runScheduleJob rejecting nightly ⟨.empty, 1, [], []⟩ =
    some (r, t) ∧ Isolated rejecting nightly ⟨.empty, 1, [], []⟩ t := by
  rintro ⟨r, t, hrun, hserved, -⟩
  have hnothing : runScheduleJob rejecting nightly ⟨.empty, 1, [], []⟩ =
      some (.ok (), ⟨.empty, 1, [], []⟩) := rfl
  rw [hnothing] at hrun
  cases hrun
  have hmem : (⟨"b", none, 1⟩ : JobVolume) ∈ nightly.volumes nightlyJob :=
    List.mem_cons_of_mem _ List.mem_cons_self
  obtain ⟨row, task, hrows, -⟩ := hserved nightlyJob List.mem_cons_self Bool.false_ne_true _ hmem
    ⟨rfl, rfl, rfl⟩
  cases hrows

end Example

end Benji.Schedule.Run

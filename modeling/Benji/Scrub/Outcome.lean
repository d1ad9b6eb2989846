import Benji.Scrub.DeepScrub

/-! What `deep_scrub` comes to. `_scrub_prepare` submits its reads to an instance of its own,
and the main loop waits for the results of another one. -/
namespace Benji
open Lib

variable {κ : Type}

namespace Scrub

section Prepare
variable {S : Settings κ} {version : Version} {sample : Sample} {s t u : Scrub κ} {i j : ℕ}

/-- `t` is `s` after `n` reads were submitted to instances other than `i`. -/
structure Submitted (i n : ℕ) (s t : Scrub κ) : Prop where
  world : t.world = s.world
  futures : (t.futures i).length = (s.futures i).length
  consumed : t.consumed = s.consumed
  history : t.history = s.history
  readJobs : t.readJobs = s.readJobs + n
  doneReadJobs : t.doneReadJobs = s.doneReadJobs
  valid : t.valid = s.valid

theorem UpToReads.submitted (h : s.UpToReads t) : Submitted i 0 s t :=
  ⟨h.world, h.futures i, h.consumed, h.history, h.readJobs, h.doneReadJobs, h.valid⟩

theorem Submitted.trans {m n : ℕ} (h : Submitted i m s t) (k : Submitted i n t u) :
    Submitted i (m + n) s u := by
  refine ⟨k.world.trans h.world, k.futures.trans h.futures, k.consumed.trans h.consumed,
    k.history.trans h.history, ?_, k.doneReadJobs.trans h.doneReadJobs, k.valid.trans h.valid⟩
  rw [k.readJobs, h.readJobs, Nat.add_assoc]

theorem submitted_submitRead (deep : Bool) (block : Block κ) (h : j ≠ i) :
    Submitted i 1 s (s.submitRead j deep block) := by
  refine ⟨rfl, ?_, rfl, rfl, rfl, rfl, rfl⟩
  exact congrArg List.length (futures_modifyInstance_of_ne h)

theorem submitted_submitReads (sample : Sample) (deep : Bool) (storage : ℕ) (h : j ≠ i)
    (blocks : List (Block κ)) :
    Submitted i (blocks.filter (wanted sample s.history storage)).length s
      (submitReads j sample storage deep blocks s) := by
  induction blocks generalizing s with
  | nil => exact (UpToReads.refl s).submitted
  | cons block rest ih =>
    unfold submitReads
    split_ifs with hw
    · have hfirst := submitted_submitRead (s := s) deep block h
      have hrest := ih (s := s.submitRead j deep block)
      rw [hfirst.history] at hrest
      rw [List.filter_cons_of_pos hw, List.length_cons, Nat.add_comm]
      exact hfirst.trans hrest
    · rw [List.filter_cons_of_neg hw]
      exact ih

theorem submitReads_of_none {deep : Bool} {storage : ℕ} {blocks : List (Block κ)}
    (h : ∀ b ∈ blocks, wanted sample s.history storage b = false) :
    submitReads j sample storage deep blocks s = s := by
  induction blocks with
  | nil => rfl
  | cons block rest ih =>
    unfold submitReads
    rw [if_neg (by simp [h block List.mem_cons_self])]
    exact ih fun b hb => h b (List.mem_cons_of_mem _ hb)

theorem futures_getByName {storage : ℕ} (hi : i ≤ s.instances.length) :
    ({ s with instances := s.instances ++ [{ storage := storage }] } : Scrub κ).futures i =
      s.futures i := by
  unfold futures
  dsimp only
  rcases Nat.lt_or_eq_of_le hi with hlt | rfl
  · rw [List.getElem?_append_left hlt]
  · rw [List.getElem?_append_right le_rfl, Nat.sub_self, List.getElem?_singleton, if_pos rfl,
      List.getElem?_eq_none le_rfl]
    rfl

theorem futures_of_fresh (h : ∀ j, s.futures j = []) (storage j : ℕ) :
    ({ s with instances := s.instances ++ [{ storage := storage }] } : Scrub κ).futures j = [] := by
  rcases Nat.lt_or_ge s.instances.length j with hlt | hge
  · unfold futures
    rw [List.getElem?_eq_none]
    · rfl
    · rw [List.length_append, List.length_singleton]
      omega
  · rw [futures_getByName hge, h]

/-- No thread has anything to do while no read is submitted. -/
theorem work_of_nil (h : ∀ j, s.futures j = []) (jobs : List (ℕ × ℕ)) : s.work jobs = s := by
  have hrun (p : ℕ × ℕ) : s.runJob p = s := by
    have hp := h p.1
    unfold futures at hp
    unfold runJob
    cases hi : s.instances[p.1]? with
    | none => rfl
    | some inst =>
      rw [hi, Option.map_some, Option.getD_some] at hp
      simp only [hp, List.getElem?_nil]
  unfold work
  induction jobs with
  | nil => rfl
  | cons p jobs ih => rw [List.foldl_cons, hrun, ih]

/-- The blocks of a version that a scrub submits for reading. -/
def toRead (S : Settings κ) (version : Version) (sample : Sample)
    (history : Option (List (ℕ × BlockUid))) (db : Database κ) : List (Block κ) :=
  (db.blocks.blocks S.blocksPerCall version).filter (wanted sample history version.storage.id)

/-- The reads go to the instance made last, so those of instance `i` stay as they are. -/
theorem scrubPrepare_spec (S : Settings κ) (version : Version) (sample : Sample) (deep : Bool)
    (hi : i < s.instances.length) : ∃ t,
    (scrubPrepare S version sample deep).Returns s () t ∧
      Submitted i (toRead S version sample s.history s.world.db).length s t := by
  have hname : Submitted i 0 s { s with
      instances := s.instances ++ [{ storage := version.storage.id }] } :=
    ⟨rfl, congrArg List.length (futures_getByName (Nat.le_of_lt hi)), rfl, rfl, rfl, rfl, rfl⟩
  have hreads := submitted_submitReads (s := { s with
      instances := s.instances ++ [{ storage := version.storage.id }] }) sample deep
    version.storage.id (Nat.ne_of_gt hi) (s.world.db.blocks.blocks S.blocksPerCall version)
  have hall := hname.trans hreads
  rw [Nat.zero_add] at hall
  exact ⟨_, rfl, hall⟩

theorem scrubPrepare_of_nil {deep : Bool}
    (h : toRead S version sample s.history s.world.db = []) :
    (scrubPrepare S version sample deep).Returns s ()
      { s with instances := s.instances ++ [{ storage := version.storage.id }] } := by
  have hnone : ∀ b ∈ s.world.db.blocks.blocks S.blocksPerCall version,
      wanted sample s.history version.storage.id b = false := by
    intro b hb
    simpa using List.filter_eq_nil_iff.mp h b hb
  simp only [scrubPrepare, Proc.returns_bind, Proc.returns_modify]
  refine ⟨s.instances.length, _, rfl, ?_⟩
  exact submitReads_of_none hnone

/-- The state in which a process calls `deep_scrub`. -/
def start (w : World κ) (cache : Option (ReadCache κ)) (history : Option (List (ℕ × BlockUid))) :
    Scrub κ := { world := w, cache := cache, history := history }

theorem returns_getVersion {w : World κ} {versionUid : String} {v : Version}
    (hget : w.db.getByUid versionUid = some v)
    (hs : v.status.isDeepScrubbable = true) (hw : s.world.db.versions = w.db.versions) :
    (getVersion versionUid true).Returns s v s := by
  have hget' : s.world.db.getByUid versionUid = some v := by
    rw [Database.getByUid, hw]
    exact hget
  simp only [getVersion, Proc.returns_bind, Proc.returns_get, Proc.returns_ofOption,
    Proc.returns_raiseIf, Proc.returns_pure]
  exact ⟨s, s, ⟨rfl, rfl⟩, v, s, ⟨hget', rfl⟩, (), s, ⟨by simp [hs], rfl⟩, (), s,
    ⟨by simp, rfl⟩, rfl, rfl⟩

/-- The world while the version is locked for the deep-scrub. -/
def locked (S : Settings κ) (versionUid : String) (w : World κ) : World κ :=
  Locking.putLock ⟨Locking.versionLockName versionUid, S.me, "Deep-scrubbing"⟩ w

variable {w : World κ} {cache : Option (ReadCache κ)} {history : Option (List (ℕ × BlockUid))}
  {versionUid : String} {v : Version}

/-- The state in which the main part of `deep_scrub` starts: it reads from instance 0. -/
def opened (S : Settings κ) (version : Version) (w : World κ) (cache : Option (ReadCache κ))
    (history : Option (List (ℕ × BlockUid))) (versionUid : String) : Scrub κ :=
  { start (locked S versionUid w) cache history with
    instances := [{ storage := version.storage.id }] }

private theorem futures_opened (j : ℕ) :
    (opened S v w cache history versionUid).futures j = [] := by
  cases j with
  | zero => rfl
  | succ j => rfl

private theorem lock_returns (hfree : Locking.isVersionLocked versionUid w = false) :
    (onWorld (Locking.lockVersion S.me versionUid "Deep-scrubbing")).Returns
      (start w cache history) () (start (locked S versionUid w) cache history) := by
  have hnone : w.db.locks.find? (Locking.versionLockName versionUid) = none := by
    simpa [Locking.isVersionLocked, Locking.isLocked] using hfree
  refine Proc.returns_onPart.mpr ⟨_, Locking.returns_lock.mpr ⟨?_, .inr hfree, rfl⟩, rfl⟩
  show Locking.heldBy S.me _ w = false
  rw [Locking.heldBy, hnone]

private theorem unlock_returns {s : Scrub κ}
    (h : s.world.db.locks = (locked S versionUid w).db.locks) : (unlock S versionUid).Returns s ()
      { s with world := Locking.eraseLock (Locking.versionLockName versionUid) s.world } := by
  have hheld : Locking.heldBy S.me (Locking.versionLockName versionUid)
      (locked S versionUid w) = true := Locking.heldBy_putLock
  refine Proc.returns_onPart.mpr ⟨_, Locking.returns_unlock.mpr ⟨?_, rfl⟩, rfl⟩
  unfold Locking.heldBy at hheld ⊢
  rw [h]
  exact hheld

private theorem finish_returns {s : Scrub κ} (hjobs : s.readJobs = s.doneReadJobs)
    (hvalid : s.valid = true) (hw : s.world = locked S versionUid w) :
    (finish S versionUid v sample).Returns s () { s with
      world := Locking.eraseLock (Locking.versionLockName versionUid)
        (if sample.blockPercentage = 100 then
          ((locked S versionUid w).mapDb fun db => db.setStatus v.id .valid).commit
          else locked S versionUid w) } := by
  have hset : (Proc.modify (fun s =>
      if s.valid = true ∧ sample.blockPercentage = 100 then setValid v s else s) :
        ScrubAction κ Unit).Returns s ()
      { s with world := if sample.blockPercentage = 100 then
        ((locked S versionUid w).mapDb fun db => db.setStatus v.id .valid).commit
        else locked S versionUid w } := by
    rw [Proc.returns_modify]
    by_cases hp : sample.blockPercentage = 100
    · rw [if_pos ⟨hvalid, hp⟩, if_pos hp, setValid, hw]
    · rw [if_neg (fun h => hp h.2), if_neg hp, ← hw]
  have hlocks : (if sample.blockPercentage = 100 then
      ((locked S versionUid w).mapDb fun db => db.setStatus v.id .valid).commit
      else locked S versionUid w).db.locks = (locked S versionUid w).db.locks := by
    split_ifs
    · rfl
    · rfl
  unfold finish
  simp only [Proc.returns_bind, Proc.returns_get, Proc.returns_raiseIf]
  exact ⟨s, s, ⟨rfl, rfl⟩, (), s, ⟨not_not.mpr hjobs, rfl⟩, (), _, hset, (), _,
    unlock_returns hlocks, by simp [hvalid], rfl⟩

end Prepare

section Outcome
variable [DecidableEq κ] {S : Settings κ} {version : Version} {source : Option Source}
  {sample : Sample} {sched : Scrub.Schedule} {s : Scrub κ} {i : ℕ}

/-- Whatever was submitted, the main loop sees no result. -/
theorem deepScrubBlocks_spec (S : Settings κ) (version : Version) (source : Option Source)
    (sample : Sample) (sched : Scrub.Schedule) (hi : i < s.instances.length)
    (hf : s.futures i = []) : ∃ t,
    (deepScrubBlocks S version source sample sched i).Returns s () t ∧
      Submitted i (toRead S version sample s.history s.world.db).length s t := by
  have hu := UpToReads.of_useReadCache (s := s) (i := i) false
  obtain ⟨t, ht, hsub⟩ := scrubPrepare_spec (s := s.useReadCache i false) (i := i) S version
    sample true (by rw [hu.instances]; exact hi)
  have hall := (hu.submitted (i := i)).trans
    (hsub.trans (UpToReads.of_work sched.before t).submitted)
  rw [Nat.zero_add, Nat.add_zero] at hall
  have hnil : (t.work sched.before).futures i = [] := by
    rw [← List.length_eq_zero_iff, hall.futures, hf, List.length_nil]
  refine ⟨t.work sched.before, ?_, hall⟩
  simp only [deepScrubBlocks, Proc.returns_bind, Proc.returns_modify]
  exact ⟨(), _, rfl, (), t, ht, (), _, rfl, forCompleted_of_nil hnil⟩

/-- Where there is nothing to read, no thread reads anything either. -/
theorem deepScrubBlocks_of_nil (source : Option Source) (sched : Scrub.Schedule) (i : ℕ)
    (hf : ∀ j, s.futures j = [])
    (h : toRead S version sample s.history s.world.db = []) :
    (deepScrubBlocks S version source sample sched i).Returns s ()
      { s.useReadCache i false with
        instances := (s.useReadCache i false).instances ++
          [{ storage := version.storage.id }] } := by
  have hall := futures_of_fresh (s := s.useReadCache i false)
    (fun j => (UpToReads.of_useReadCache false).futures_nil (hf j)) version.storage.id
  have hwork := work_of_nil hall sched.before
  simp only [deepScrubBlocks, Proc.returns_bind, Proc.returns_modify]
  refine ⟨(), _, rfl, (), _, scrubPrepare_of_nil h, (), _, rfl, ?_⟩
  rw [hwork]
  exact forCompleted_of_nil (hall i)

variable {w : World κ} {cache : Option (ReadCache κ)} {history : Option (List (ℕ × BlockUid))}
  {versionUid : String} {v : Version}

/-- Once the loop has come to its end, only `finish` is left. -/
theorem deepScrub_eq_finish (hget : w.db.getByUid versionUid = some v)
    (hs : v.status.isDeepScrubbable = true) (hfree : Locking.isVersionLocked versionUid w = false)
    {t : Scrub κ} (ht : (deepScrubBlocks S v source sample sched 0).Returns
      (opened S v w cache history versionUid) () t) :
    deepScrub S versionUid source sample sched (start w cache history) =
      finish S versionUid v sample (t.useReadCache 0 true) := by
  have hversion :
      (Proc.tryExcept (getVersion versionUid true) (unlockAndRaise S versionUid)).Returns
        (start (locked S versionUid w) cache history) v
        (start (locked S versionUid w) cache history) :=
    Proc.returns_tryExcept.mpr (.inl (returns_getVersion hget hs rfl))
  have hname : (getByName v.storage.id).Returns (start (locked S versionUid w) cache history) 0
      (opened S v w cache history versionUid) := rfl
  have hget : (Proc.get : ScrubAction κ (Scrub κ)).Returns
      (opened S v w cache history versionUid) (opened S v w cache history versionUid)
      (opened S v w cache history versionUid) := rfl
  have hbody : (Proc.tryFinally
      (Proc.tryExcept (deepScrubBlocks S v source sample sched 0) (unlockAndRaise S versionUid))
      (Proc.modify (useReadCache 0 true))).Returns (opened S v w cache history versionUid) ()
        (t.useReadCache 0 true) :=
    Proc.returns_tryFinally.mpr ⟨t, Proc.returns_tryExcept.mpr (.inl ht), rfl⟩
  unfold deepScrub
  rw [(lock_returns hfree).bind_eq, hversion.bind_eq, hname.bind_eq, hget.bind_eq]
  exact hbody.bind_eq

/-- A version without objects passes: its status becomes valid, and the lock is released. -/
theorem deepScrub_of_nil (source : Option Source) (sched : Scrub.Schedule)
    (cache : Option (ReadCache κ)) (hget : w.db.getByUid versionUid = some v)
    (hs : v.status.isDeepScrubbable = true) (hfree : Locking.isVersionLocked versionUid w = false)
    (hnil : toRead S v sample history w.db = []) : ∃ t,
    (deepScrub S versionUid source sample sched).Returns (start w cache history) () t ∧
      t.storageReads = [] ∧ t.cacheReads = [] ∧ t.consumed = [] ∧
      t.world = Locking.eraseLock (Locking.versionLockName versionUid)
        (if sample.blockPercentage = 100 then
          ((locked S versionUid w).mapDb fun db => db.setStatus v.id .valid).commit
          else locked S versionUid w) := by
  have hblocks := deepScrubBlocks_of_nil (s := opened S v w cache history versionUid) source sched 0
    futures_opened hnil
  unfold Proc.Returns
  rw [deepScrub_eq_finish hget hs hfree hblocks]
  exact ⟨_, finish_returns (w := w) rfl rfl rfl, rfl, rfl, rfl, rfl⟩

/-- As soon as one block is read, the jobs do not add up and the version stays locked. -/
theorem deepScrub_of_ne_nil (source : Option Source) (sched : Scrub.Schedule)
    (cache : Option (ReadCache κ)) (hget : w.db.getByUid versionUid = some v)
    (hs : v.status.isDeepScrubbable = true) (hfree : Locking.isVersionLocked versionUid w = false)
    (hne : toRead S v sample history w.db ≠ []) : ∃ t,
    (deepScrub S versionUid source sample sched).Raises (start w cache history)
      (jobsMessage "read" (toRead S v sample history w.db).length 0) t ∧
      t.consumed = [] ∧ t.world = locked S versionUid w := by
  obtain ⟨t, ht, hsub⟩ := deepScrubBlocks_spec (s := opened S v w cache history versionUid) (i := 0)
    S v source sample sched Nat.one_pos rfl
  have hu := UpToReads.of_useReadCache (s := t) (i := 0) true
  have hread : (t.useReadCache 0 true).readJobs = (toRead S v sample history w.db).length := by
    rw [hu.readJobs, hsub.readJobs]
    exact Nat.zero_add _
  have hdone : (t.useReadCache 0 true).doneReadJobs = 0 := hu.doneReadJobs.trans hsub.doneReadJobs
  refine ⟨t.useReadCache 0 true, ?_, hu.consumed.trans hsub.consumed, hu.world.trans hsub.world⟩
  unfold Proc.Raises
  rw [deepScrub_eq_finish hget hs hfree ht]
  refine Proc.raises_bind.mpr (.inr ⟨_, _, rfl, Proc.raises_bind.mpr (.inl ?_)⟩)
  rw [Proc.raises_raiseIf, hread, hdone]
  exact ⟨(List.length_pos_iff.mpr hne).ne', rfl, rfl⟩

end Outcome

end Scrub
end Benji

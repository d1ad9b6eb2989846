import Mathlib.Data.List.Basic
import Benji.Lib.LockFlow

/-! The operations that work on a version under its lock, reduced to what they do to locks and to
the steps between that may raise. -/
namespace Benji.Balance
open Lib LockFlow

/-- What an operation does between two changes of its locks. -/
inductive Step where
  /-- `IOFactory.get`, `open_r` and `size`. -/
  | openSource
  /-- Everything in `update_version` before its `try`. -/
  | checkBase
  /-- The loop of `update_version` over the blocks, and `version.save`. -/
  | cloneBlocks
  | checkHints
  /-- The reads of the sanity check. -/
  | readIgnored
  | removeVersion
  /-- The `try` around the block loop of `backup`. -/
  | copyBlocks
  | closeSource
  | commit
  /-- The comparison of submitted and completed jobs. -/
  | countJobs
  | setStatus
  | backUpMetadata
  | setStats
  /-- `get_by_uid` and the checks on the status. -/
  | getVersion
  | openTarget
  | restoreBlocks
  | closeTarget
  /-- The loop of a scrub. -/
  | scrubBlocks
  | restoreReadCache
  /-- The exception that a scrub raises in the end, if the version is not valid. -/
  | report
  deriving DecidableEq

abbrev Flow := LockFlow String Step

variable {versionUid : String} {base : Option String}

/-- `try: body except: unlock_version(versionUid); raise`. -/
def guarded (versionUid : String) (body : Flow) : Flow :=
  tryExcept body (seq (unlock versionUid) raise)

/-- `if base_version_uid: lock_version(base_version_uid)`. -/
def lockBase : Option String → Flow
  | none => skip
  | some baseVersionUid => lock baseVersionUid

/-- `if base_version_uid and is_version_locked(base_version_uid): unlock_version(..)`. -/
def unlockBase : Option String → Flow
  | none => skip
  | some baseVersionUid => unlockIfLocked baseVersionUid

def updateVersion (base : Option String) (versionUid : String) : Flow :=
  seq (step .checkBase)
    (tryFinally
      (tryExcept (seq (lockBase base) (seq (lock versionUid) (step .cloneBlocks)))
        (seq (unlockIfLocked versionUid) raise))
      (unlockBase base))

/-- The sanity check is made with a base version and hints only, and passes or removes the
version. -/
def sanityCheck (versionUid : String) : Flow :=
  either skip (seq (step .readIgnored)
    (either skip (seq (step .removeVersion) (seq (unlock versionUid) raise))))

def copyBlocks (versionUid : String) : Flow :=
  tryFinally (guarded versionUid (step .copyBlocks)) (seq (step .closeSource) (step .commit))

/-- What `do_create_backup` does after the block loop. -/
def finishBackup (versionUid : String) : Flow :=
  seq (step .countJobs) (seq (step .setStatus) (seq (step .backUpMetadata)
    (seq (step .setStats) (unlock versionUid))))

def doCreateBackup (versionUid : String) : Flow :=
  seq (update versionUid) (seq (step .checkHints) (seq (sanityCheck versionUid)
    (seq (copyBlocks versionUid) (finishBackup versionUid))))

def backup (base : Option String) (versionUid : String) : Flow :=
  seq (step .openSource) (seq (updateVersion base versionUid) (doCreateBackup versionUid))

def scrub (versionUid : String) : Flow :=
  seq (lock versionUid) (seq (guarded versionUid (step .getVersion))
    (seq (tryFinally (step .scrubBlocks) (unlock versionUid))
      (seq (step .countJobs) (step .report))))

/-- What `deep_scrub` does after its loop. -/
def finishDeepScrub (versionUid : String) : Flow :=
  seq (step .countJobs) (seq (either skip (guarded versionUid (step .setStatus)))
    (seq (unlock versionUid) (step .report)))

def deepScrub (versionUid : String) : Flow :=
  seq (lock versionUid)
    (seq (guarded versionUid (seq (step .getVersion) (step .openSource)))
      (seq (tryFinally (guarded versionUid (step .scrubBlocks))
          (seq (step .closeSource) (step .restoreReadCache)))
        (finishDeepScrub versionUid)))

def restore (versionUid : String) : Flow :=
  seq (lock versionUid)
    (seq (guarded versionUid (seq (step .getVersion) (step .openTarget)))
      (seq (tryFinally (step .restoreBlocks) (seq (step .closeTarget) (unlock versionUid)))
        (step .countJobs)))

/-! ### What each of them leaves locked -/

variable {taken held after : Set String} {ok : Bool} {raised : List Step}

def baseNames (base : Option String) : Set String := {n | n ∈ base}

theorem exec_lockBase (h : (lockBase base).Exec taken held ok raised after) :
    raised = [] ∧ (ok = false ∧ after = held ∨
      ok = true ∧ (∀ n ∈ base, n ∉ held) ∧ after = held ∪ baseNames base) := by
  cases base with
  | none =>
    obtain ⟨hok, hraised, rfl⟩ := h
    exact ⟨hraised, .inr ⟨hok, by simp, by simp [baseNames]⟩⟩
  | some b =>
    obtain ⟨hraised, ⟨hheld, -, hok, hafter⟩ | ⟨-, hok, hafter⟩⟩ := h
    · refine ⟨hraised, .inr ⟨hok, ?_, ?_⟩⟩
      · rintro n ⟨⟩
        exact hheld
      · rw [hafter, baseNames]
        congr 1
        ext n
        simp [eq_comm]
    · exact ⟨hraised, .inl ⟨hok, hafter⟩⟩

theorem exec_unlockBase (h : (unlockBase base).Exec taken held ok raised after) :
    raised = [] ∧ after = held \ baseNames base := by
  cases base with
  | none =>
    obtain ⟨-, hraised, rfl⟩ := h
    exact ⟨hraised, by simp [baseNames]⟩
  | some b =>
    obtain ⟨hraised, rfl⟩ := exec_unlockIfLocked h
    refine ⟨hraised, ?_⟩
    congr 1
    ext n
    simp [baseNames, eq_comm]

/-- Where the locks it takes are its own again, it returns. -/
theorem exec_unlockBase_returns (hbase : ∀ n ∈ base, n ∈ held)
    (h : (unlockBase base).Exec taken held ok raised after) : ok = true := by
  cases base with
  | none => exact h.1
  | some b => exact ((exec_unlockIfLocked_of_mem (hbase b rfl)).mp h).1

/-- The body of the `try` in `update_version`: what it may have taken when it raises are the two
locks that are released then. -/
theorem exec_cloneBase
    (h : (seq (lockBase base) (seq (lock versionUid) (step .cloneBlocks))).Exec
      taken held ok raised after) :
    ok = true ∧ raised = [] ∧ (∀ n ∈ base, n ∉ held) ∧ versionUid ∉ held ∪ baseNames base ∧
        after = held ∪ baseNames base ∪ {versionUid} ∨
      ok = false ∧ (raised = [] ∨ raised = [.cloneBlocks]) ∧
        (after \ {versionUid}) \ baseNames base = (held \ {versionUid}) \ baseNames base := by
  have hbase : ((held ∪ baseNames base) \ {versionUid}) \ baseNames base =
      (held \ {versionUid}) \ baseNames base := by
    rw [sdiff_right_comm, Set.union_sdiff_right, sdiff_right_comm]
  rcases h with ⟨ks, ls, mid, hlock, hrest, rfl⟩ | ⟨rfl, hlock⟩
  · obtain ⟨rfl, ⟨hok, -⟩ | ⟨-, hfree, rfl⟩⟩ := exec_lockBase hlock
    · cases hok
    rw [List.nil_append]
    rcases exec_seq_lock.mp hrest with ⟨-, hok, hraised, rfl⟩ | ⟨hheld, -, rfl, hclone⟩
    · exact .inr ⟨hok, .inl hraised, hbase⟩
    · rcases hclone with ⟨hok, hraised⟩ | ⟨hok, hraised⟩
      · exact .inl ⟨hok, hraised, hfree, hheld, rfl⟩
      · refine .inr ⟨hok, .inr hraised, ?_⟩
        rw [Set.union_sdiff_right]
        exact hbase
  · obtain ⟨hraised, ⟨-, rfl⟩ | ⟨hok, -⟩⟩ := exec_lockBase hlock
    · exact .inr ⟨rfl, .inl hraised, rfl⟩
    · cases hok

/-- `update_version` ends with the version's lock taken, or without it and the base version's,
whether it had taken them or they were held before. -/
theorem exec_updateVersion (h : (updateVersion base versionUid).Exec taken held ok raised after) :
    ok = false ∧ raised = [.checkBase] ∧ after = held ∨
      ok = false ∧ (raised = [] ∨ raised = [.cloneBlocks]) ∧
        after = (held \ {versionUid}) \ baseNames base ∨
      ok = true ∧ raised = [] ∧ versionUid ∉ held ∧ (∀ n ∈ base, n ∉ held) ∧
        after = held ∪ {versionUid} := by
  rcases exec_seq_step.mp h with h | h
  · obtain ⟨r, r', ks, ls, mid, hbody, hcleanup, rfl, rfl⟩ := h
    obtain ⟨rfl, rfl⟩ := exec_unlockBase hcleanup
    rw [List.append_nil]
    rcases hbody with ⟨rfl, hbody⟩ | ⟨ks, ls, mid', hbody, hhandler, rfl⟩
    · rcases exec_cloneBase hbody with ⟨-, rfl, hfree, hheld, rfl⟩ | ⟨hok, -⟩
      · have hmem : ∀ n ∈ base, n ∈ held ∪ baseNames base ∪ {versionUid} :=
          fun n hn => .inl (.inr hn)
        have hdisjoint : Disjoint held (baseNames base) :=
          Set.disjoint_right.mpr fun n hn => hfree n hn
        obtain rfl := exec_unlockBase_returns hmem hcleanup
        refine .inr (.inr ⟨rfl, rfl, fun hn => hheld (.inl hn), hfree, ?_⟩)
        have hsingle : {versionUid} \ baseNames base = {versionUid} :=
          (Set.disjoint_singleton_left.mpr fun hn => hheld (.inr hn)).sdiff_eq_left
        rw [Set.union_sdiff_distrib, Set.union_sdiff_right, hdisjoint.sdiff_eq_left, hsingle]
      · cases hok
    · obtain ⟨rfl, rfl, rfl⟩ := exec_releaseAndRaise hhandler
      rcases exec_cloneBase hbody with ⟨hok, -⟩ | ⟨-, hraised, hafter⟩
      · cases hok
      · rw [List.append_nil]
        exact .inr (.inl ⟨rfl, hraised, hafter⟩)
  · exact .inl h

theorem exec_finishBackup (hv : versionUid ∈ held)
    (h : (finishBackup versionUid).Exec taken held ok raised after) :
    raised = [] ∧ after = held \ {versionUid} ∨
      (∃ s ∈ [Step.countJobs, .setStatus, .backUpMetadata, .setStats], raised = [s]) ∧
        after = held := by
  rcases exec_seq_step.mp h with h | ⟨-, rfl, rfl⟩
  · rcases exec_seq_step.mp h with h | ⟨-, rfl, rfl⟩
    · rcases exec_seq_step.mp h with h | ⟨-, rfl, rfl⟩
      · rcases exec_seq_step.mp h with h | ⟨-, rfl, rfl⟩
        · obtain ⟨-, hraised, hafter⟩ := (exec_unlock_of_mem hv).mp h
          exact .inl ⟨hraised, hafter⟩
        · exact .inr ⟨⟨.setStats, by simp, rfl⟩, rfl⟩
      · exact .inr ⟨⟨.backUpMetadata, by simp, rfl⟩, rfl⟩
    · exact .inr ⟨⟨.setStatus, by simp, rfl⟩, rfl⟩
  · exact .inr ⟨⟨.countJobs, by simp, rfl⟩, rfl⟩

theorem exec_sanityCheck (hv : versionUid ∈ held)
    (h : (sanityCheck versionUid).Exec taken held ok raised after) :
    ok = true ∧ raised = [] ∧ after = held ∨
      ok = false ∧ raised = [] ∧ after = held \ {versionUid} ∨
      ok = false ∧ (raised = [.readIgnored] ∨ raised = [.removeVersion]) ∧ after = held := by
  rcases h with h | h
  · exact .inl h
  · rcases exec_seq_step.mp h with (h | h) | ⟨hok, hraised, hafter⟩
    · exact .inl h
    · rcases exec_seq_step.mp h with h | ⟨hok, hraised, hafter⟩
      · exact .inr (.inl ((exec_unlockAndRaise hv).mp h))
      · exact .inr (.inr ⟨hok, .inr hraised, hafter⟩)
    · exact .inr (.inr ⟨hok, .inl hraised, hafter⟩)

theorem exec_sanityCheck_returns :
    (sanityCheck versionUid).Exec taken held true raised after ↔ raised = [] ∧ after = held := by
  constructor
  · rintro (h | h)
    · exact h.2
    · rcases exec_seq_step.mp h with (h | h) | ⟨hok, -⟩
      · exact h.2
      · rcases exec_seq_step.mp h with (⟨_, _, _, -, ⟨hok, -⟩, -⟩ | ⟨hok, -⟩) | ⟨hok, -⟩
        · cases hok
        · cases hok
        · cases hok
      · cases hok
  · exact fun h => .inl ⟨rfl, h⟩

/-- The lock is released where the block loop raises, and the cleanup leaves it as it is. -/
theorem exec_copyBlocks (hv : versionUid ∈ held)
    (h : (copyBlocks versionUid).Exec taken held ok raised after) :
    ∃ r ls, (ls = [] ∨ ls = [Step.closeSource] ∨ ls = [Step.commit]) ∧
      ok = (r && ls.isEmpty) ∧ raised = (if r then [] else [Step.copyBlocks]) ++ ls ∧
      after = if r then held else held \ {versionUid} := by
  obtain ⟨r, r', ks, ls, mid, hbody, hcleanup, hok, hraised⟩ := h
  obtain ⟨⟨-, hstep⟩, hmid⟩ := (exec_guarded leaves_step hv).mp hbody
  have hks : ks = if r then [] else [Step.copyBlocks] := by
    rcases hstep with ⟨rfl, rfl⟩ | ⟨rfl, rfl⟩
    · rfl
    · rfl
  subst hks hmid
  rcases exec_seq_step.mp hcleanup with ⟨hafter, hlast⟩ | ⟨rfl, rfl, hafter⟩
  · rcases hlast with ⟨rfl, rfl⟩ | ⟨rfl, rfl⟩
    · exact ⟨r, [], .inl rfl, hok, hraised, hafter⟩
    · exact ⟨r, _, .inr (.inr rfl), hok, hraised, hafter⟩
  · exact ⟨r, _, .inr (.inl rfl), hok, hraised, hafter⟩

/-- The steps of `do_create_backup` outside of its `try`. -/
def unguarded : List Step :=
  [.checkHints, .readIgnored, .removeVersion, .countJobs, .setStatus, .backUpMetadata, .setStats]

/-- Nothing outside of the `try` raises, and its `finally` does so after an exception only. -/
def BackupReleases (raised : List Step) : Prop :=
  (∀ s ∈ unguarded, s ∉ raised) ∧
    (.copyBlocks ∈ raised ∨ .closeSource ∉ raised ∧ .commit ∉ raised)

theorem exec_doCreateBackup (hv : versionUid ∈ held)
    (h : (doCreateBackup versionUid).Exec taken held ok raised after) :
    BackupReleases raised ∧ after = held \ {versionUid} ∨
      ¬ BackupReleases raised ∧ after = held := by
  rw [doCreateBackup, exec_seq_of_returns fun _ _ _ => exec_update_of_mem hv] at h
  rcases exec_seq_step.mp h with hchecked | ⟨-, rfl, rfl⟩
  · rcases hchecked with ⟨ks, ls, mid, hcheck, hrest, rfl⟩ | ⟨rfl, hcheck⟩
    · rcases exec_sanityCheck hv hcheck with ⟨-, rfl, rfl⟩ | ⟨hok, -⟩ | ⟨hok, -⟩
      · rcases hrest with ⟨ks, ms, mid', hcopy, hfinish, rfl⟩ | ⟨rfl, hcopy⟩
        · obtain ⟨r, ls, -, hok, rfl, rfl⟩ := exec_copyBlocks hv hcopy
          -- Only a loop and a cleanup that returned get here.
          obtain ⟨rfl, hls⟩ := Bool.and_eq_true_iff.mp hok.symm
          obtain rfl := List.isEmpty_iff.mp hls
          rcases exec_finishBackup hv hfinish with ⟨rfl, hafter⟩ | ⟨⟨s, hs, rfl⟩, hafter⟩
          · exact .inl ⟨by simp [BackupReleases], hafter⟩
          · refine .inr ⟨fun hrel => hrel.1 s ?_ (by simp), hafter⟩
            simp only [List.mem_cons, List.not_mem_nil, or_false] at hs
            rcases hs with rfl | rfl | rfl | rfl
            all_goals simp [unguarded]
        · obtain ⟨r, ls, hls, hok, rfl, rfl⟩ := exec_copyBlocks hv hcopy
          cases r with
          | true =>
            rcases hls with rfl | rfl | rfl
            · cases hok
            · exact .inr ⟨by simp [BackupReleases], rfl⟩
            · exact .inr ⟨by simp [BackupReleases], rfl⟩
          | false =>
            refine .inl ⟨⟨?_, .inl (by simp)⟩, rfl⟩
            rcases hls with rfl | rfl | rfl
            all_goals simp [unguarded]
      · cases hok
      · cases hok
    · rcases exec_sanityCheck hv hcheck with ⟨hok, -⟩ | ⟨-, rfl, hafter⟩ | ⟨-, hraised, hafter⟩
      · cases hok
      · exact .inl ⟨by simp [BackupReleases], hafter⟩
      · refine .inr ⟨?_, hafter⟩
        rcases hraised with rfl | rfl
        all_goals simp [BackupReleases, unguarded]
  · exact .inr ⟨by simp [BackupReleases, unguarded], rfl⟩

/-- The two locks are not held before, unless nothing is taken at all, and nothing goes wrong
where the lock would be kept. -/
def BackupBalanced (base : Option String) (versionUid : String) (held : Set String)
    (raised : List Step) : Prop :=
  (.openSource ∈ raised ∨ .checkBase ∈ raised ∨ versionUid ∉ held ∧ ∀ n ∈ base, n ∉ held) ∧
    BackupReleases raised

theorem sdiff_baseNames_eq_iff :
    (held \ {versionUid}) \ baseNames base = held ↔ versionUid ∉ held ∧ ∀ n ∈ base, n ∉ held := by
  constructor
  · intro heq
    rw [← heq]
    exact ⟨fun hv => hv.1.2 rfl, fun n hn hmem => hmem.2 hn⟩
  · rintro ⟨hv, hbase⟩
    rw [Set.sdiff_singleton_eq_self hv]
    exact (Set.disjoint_right.mpr hbase).sdiff_eq_left

/-- A backup ends with the locks it began with, or with the version's lock as well, or without the
two locks that it found held and could not take. -/
theorem exec_backup (h : (backup base versionUid).Exec taken held ok raised after) :
    BackupBalanced base versionUid held raised ∧ after = held ∨
      ¬ BackupBalanced base versionUid held raised ∧
        (¬ BackupReleases raised ∧ versionUid ∉ held ∧ (∀ n ∈ base, n ∉ held) ∧
            after = held ∪ {versionUid} ∨
          BackupReleases raised ∧ .openSource ∉ raised ∧ .checkBase ∉ raised ∧
            ¬ (versionUid ∉ held ∧ ∀ n ∈ base, n ∉ held) ∧
            after = (held \ {versionUid}) \ baseNames base) := by
  rcases exec_seq_step.mp h with hopened | ⟨-, rfl, rfl⟩
  · rcases hopened with ⟨ks, ls, mid, hupdate, hcreate, rfl⟩ | ⟨rfl, hupdate⟩
    · rcases exec_updateVersion hupdate with ⟨hok, -⟩ | ⟨hok, -⟩ | ⟨-, rfl, hv, hbase, rfl⟩
      · cases hok
      · cases hok
      · have hmem : versionUid ∈ held ∪ {versionUid} := Set.mem_union_right held rfl
        rw [List.nil_append]
        rcases exec_doCreateBackup hmem hcreate with ⟨hrel, rfl⟩ | ⟨hrel, rfl⟩
        · exact .inl ⟨⟨.inr (.inr ⟨hv, hbase⟩), hrel⟩, sdiff_union_of_notMem hv⟩
        · exact .inr ⟨fun hbal => hrel hbal.2, .inl ⟨hrel, hv, hbase, rfl⟩⟩
    · rcases exec_updateVersion hupdate with ⟨-, rfl, rfl⟩ | ⟨-, hraised, rfl⟩ | ⟨hok, -⟩
      · exact .inl ⟨by simp [BackupBalanced, BackupReleases, unguarded], rfl⟩
      · have hbalanced : BackupBalanced base versionUid held raised ↔
            versionUid ∉ held ∧ ∀ n ∈ base, n ∉ held := by
          rcases hraised with rfl | rfl
          all_goals simp [BackupBalanced, BackupReleases, unguarded]
        have hchecked : BackupReleases raised ∧ .openSource ∉ raised ∧ .checkBase ∉ raised := by
          rcases hraised with rfl | rfl
          all_goals simp [BackupReleases, unguarded]
        by_cases hfree : versionUid ∉ held ∧ ∀ n ∈ base, n ∉ held
        · exact .inl ⟨hbalanced.mpr hfree, sdiff_baseNames_eq_iff.mpr hfree⟩
        · exact .inr ⟨hbalanced.not.mpr hfree,
            .inr ⟨hchecked.1, hchecked.2.1, hchecked.2.2, hfree, rfl⟩⟩
      · cases hok
  · exact .inl ⟨by simp [BackupBalanced, BackupReleases, unguarded], rfl⟩

theorem backup_balanced_iff (h : (backup base versionUid).Exec taken held ok raised after) :
    after = held ↔ BackupBalanced base versionUid held raised := by
  rcases exec_backup h with ⟨hbal, rfl⟩ | ⟨hbal, ⟨-, hv, -, rfl⟩ | ⟨-, -, -, hheld, rfl⟩⟩
  · exact ⟨fun _ => hbal, fun _ => rfl⟩
  · exact ⟨fun heq => absurd heq (union_ne_self hv), fun h => absurd h hbal⟩
  · exact ⟨fun heq => absurd (sdiff_baseNames_eq_iff.mp heq) hheld, fun h => absurd h hbal⟩

/-- Two steps in a row, of which one has raised if they do not return. -/
theorem exec_two_steps {j k : Step}
    (h : (seq (step j) (step k)).Exec taken held ok raised after) :
    after = held ∧ (ok = true ∧ raised = [] ∨ ok = false ∧ (raised = [j] ∨ raised = [k])) := by
  rcases exec_seq_step.mp h with ⟨hafter, ⟨hok, hraised⟩ | ⟨hok, hraised⟩⟩ | ⟨hok, hraised, hafter⟩
  · exact ⟨hafter, .inl ⟨hok, hraised⟩⟩
  · exact ⟨hafter, .inr ⟨hok, .inr hraised⟩⟩
  · exact ⟨hafter, .inr ⟨hok, .inl hraised⟩⟩

/-- The part of an operation up to where it works on a version whose lock it has taken: it goes
on from there, or ends as it began. -/
theorem exec_start {body rest : Flow} (hbody : body.Leaves taken (held ∪ {versionUid}))
    (h : (seq (lock versionUid) (seq (guarded versionUid body) rest)).Exec
      taken held ok raised after) :
    ok = false ∧ raised = [] ∧ after = held ∨
      ok = false ∧ after = held ∧
        body.Exec taken (held ∪ {versionUid}) false raised (held ∪ {versionUid}) ∨
      versionUid ∉ held ∧ ∃ ks ls,
        body.Exec taken (held ∪ {versionUid}) true ks (held ∪ {versionUid}) ∧
          rest.Exec taken (held ∪ {versionUid}) ok ls after ∧ raised = ks ++ ls := by
  have hmem : versionUid ∈ held ∪ {versionUid} := Set.mem_union_right held rfl
  rcases exec_seq_lock.mp h with ⟨-, h⟩ | ⟨hheld, -, hstarted⟩
  · exact .inl h
  · rcases hstarted with ⟨ks, ls, mid, hguarded, hrest, hraised⟩ | ⟨hok, hguarded⟩
    · obtain ⟨hreturns, hmid⟩ := (exec_guarded hbody hmem).mp hguarded
      rw [if_pos rfl] at hmid
      subst hmid
      exact .inr (.inr ⟨hheld, ks, ls, hreturns, hrest, hraised⟩)
    · obtain ⟨hraises, hafter⟩ := (exec_guarded hbody hmem).mp hguarded
      rw [if_neg (by decide), sdiff_union_of_notMem hheld] at hafter
      exact .inr (.inl ⟨hok, hafter, hraises⟩)

theorem exec_scrub (h : (scrub versionUid).Exec taken held ok raised after) :
    after = held := by
  have hmem : versionUid ∈ held ∪ {versionUid} := Set.mem_union_right held rfl
  rcases exec_start leaves_step h with
    ⟨-, -, hafter⟩ | ⟨-, hafter, -⟩ | ⟨hheld, ks, ls, -, hrest, -⟩
  · exact hafter
  · exact hafter
  · have hloop : ∀ {r ms mid}, (tryFinally (step .scrubBlocks) (unlock versionUid) : Flow).Exec
        taken (held ∪ {versionUid}) r ms mid → mid = held := by
      rintro r ms mid ⟨_, _, _, _, _, ⟨rfl, -⟩, hunlock, -⟩
      rw [((exec_unlock_of_mem hmem).mp hunlock).2.2, sdiff_union_of_notMem hheld]
    rcases hrest with ⟨_, _, mid, hscrub, hcount, -⟩ | ⟨-, hscrub⟩
    · obtain rfl := hloop hscrub
      exact (exec_two_steps hcount).1
    · exact hloop hscrub

theorem exec_restoreLoop (hheld : versionUid ∉ held)
    (h : (tryFinally (step .restoreBlocks) (seq (step .closeTarget) (unlock versionUid)) :
      Flow).Exec taken (held ∪ {versionUid}) ok raised after) :
    .closeTarget ∉ raised ∧ after = held ∨
      .closeTarget ∈ raised ∧ ok = false ∧ after = held ∪ {versionUid} := by
  have hmem : versionUid ∈ held ∪ {versionUid} := Set.mem_union_right held rfl
  obtain ⟨r, r', ks, ls, mid, ⟨rfl, hstep⟩, hcleanup, rfl, rfl⟩ := h
  have hks : .closeTarget ∉ ks := by
    rcases hstep with ⟨-, rfl⟩ | ⟨-, rfl⟩
    · simp
    · simp
  rcases exec_seq_step.mp hcleanup with hunlock | ⟨rfl, rfl, rfl⟩
  · obtain ⟨-, rfl, rfl⟩ := (exec_unlock_of_mem hmem).mp hunlock
    rw [List.append_nil, sdiff_union_of_notMem hheld]
    exact .inl ⟨hks, rfl⟩
  · exact .inr ⟨by simp, Bool.and_false r, rfl⟩

/-- The lock is kept if closing the target raises. -/
def RestoreBalanced (raised : List Step) : Prop := .closeTarget ∉ raised

theorem exec_restore (h : (restore versionUid).Exec taken held ok raised after) :
    RestoreBalanced raised ∧ after = held ∨
      ¬ RestoreBalanced raised ∧ versionUid ∉ held ∧ after = held ∪ {versionUid} := by
  rcases exec_start (leaves_step.seq leaves_step) h with
    ⟨-, rfl, rfl⟩ | ⟨-, rfl, hbody⟩ | ⟨hheld, ks, ls, hbody, hrest, rfl⟩
  · exact .inl ⟨by simp [RestoreBalanced], rfl⟩
  · obtain ⟨-, ⟨hok, -⟩ | ⟨-, rfl | rfl⟩⟩ := exec_two_steps hbody
    · cases hok
    · exact .inl ⟨by simp [RestoreBalanced], rfl⟩
    · exact .inl ⟨by simp [RestoreBalanced], rfl⟩
  · obtain ⟨-, ⟨-, rfl⟩ | ⟨hok, -⟩⟩ := exec_two_steps hbody
    swap
    · cases hok
    rw [List.nil_append]
    rcases hrest with ⟨ks, ms, mid, hloop, ⟨rfl, hcount⟩, rfl⟩ | ⟨-, hloop⟩
    · have hms : .closeTarget ∉ ms := by
        rcases hcount with ⟨-, rfl⟩ | ⟨-, rfl⟩
        · simp
        · simp
      rcases exec_restoreLoop hheld hloop with ⟨hks, rfl⟩ | ⟨-, hok, -⟩
      · exact .inl ⟨by simp [RestoreBalanced, hks, hms], rfl⟩
      · cases hok
    · rcases exec_restoreLoop hheld hloop with ⟨hls, rfl⟩ | ⟨hls, -, rfl⟩
      · exact .inl ⟨hls, rfl⟩
      · exact .inr ⟨fun hbal => hbal hls, hheld, rfl⟩

/-- The lock is kept if the jobs do not add up, and if the `finally` raises after the loop
returned. -/
def DeepScrubBalanced (raised : List Step) : Prop :=
  .countJobs ∉ raised ∧
    (.scrubBlocks ∈ raised ∨ .closeSource ∉ raised ∧ .restoreReadCache ∉ raised)

/-- The loop of `deep_scrub` with its handler and its cleanup. -/
theorem exec_deepScrubLoop (hheld : versionUid ∉ held)
    (h : (tryFinally (guarded versionUid (step .scrubBlocks))
      (seq (step .closeSource) (step .restoreReadCache)) : Flow).Exec
        taken (held ∪ {versionUid}) ok raised after) :
    ok = true ∧ raised = [] ∧ after = held ∪ {versionUid} ∨
      ok = false ∧ DeepScrubBalanced raised ∧ after = held ∨
      ok = false ∧ ¬ DeepScrubBalanced raised ∧ after = held ∪ {versionUid} := by
  have hmem : versionUid ∈ held ∪ {versionUid} := Set.mem_union_right held rfl
  obtain ⟨r, r', ks, ls, mid, hbody, hcleanup, rfl, rfl⟩ := h
  obtain ⟨⟨-, hstep⟩, rfl⟩ := (exec_guarded leaves_step hmem).mp hbody
  obtain ⟨rfl, hlast⟩ := exec_two_steps hcleanup
  rcases hstep with ⟨rfl, rfl⟩ | ⟨rfl, rfl⟩
  · rw [if_pos rfl]
    rcases hlast with ⟨rfl, rfl⟩ | ⟨rfl, rfl | rfl⟩
    · exact .inl ⟨rfl, rfl, rfl⟩
    · exact .inr (.inr ⟨rfl, by simp [DeepScrubBalanced], rfl⟩)
    · exact .inr (.inr ⟨rfl, by simp [DeepScrubBalanced], rfl⟩)
  · rw [if_neg (by decide), sdiff_union_of_notMem hheld]
    refine .inr (.inl ⟨rfl, ⟨?_, .inl (by simp)⟩, rfl⟩)
    rcases hlast with ⟨rfl, rfl⟩ | ⟨rfl, rfl | rfl⟩
    all_goals simp

/-- What follows the loop releases the lock, unless the jobs do not add up. -/
theorem exec_finishDeepScrub (hheld : versionUid ∉ held)
    (h : (finishDeepScrub versionUid).Exec taken (held ∪ {versionUid}) ok raised after) :
    .scrubBlocks ∉ raised ∧ .closeSource ∉ raised ∧ .restoreReadCache ∉ raised ∧
      (.countJobs ∉ raised ∧ after = held ∨
        .countJobs ∈ raised ∧ after = held ∪ {versionUid}) := by
  have hmem : versionUid ∈ held ∪ {versionUid} := Set.mem_union_right held rfl
  have hunlocked : ∀ {r ls mid}, (seq (unlock versionUid) (step .report) : Flow).Exec
      taken (held ∪ {versionUid}) r ls mid → mid = held ∧ (ls = [] ∨ ls = [.report]) := by
    intro r ls mid hlast
    rw [exec_seq_of_returns fun _ _ _ => exec_unlock_of_mem hmem, sdiff_union_of_notMem hheld]
      at hlast
    obtain ⟨rfl, ⟨-, hls⟩ | ⟨-, hls⟩⟩ := hlast
    · exact ⟨rfl, .inl hls⟩
    · exact ⟨rfl, .inr hls⟩
  have hset : ∀ {r ls mid}, (either skip (guarded versionUid (step .setStatus)) : Flow).Exec
      taken (held ∪ {versionUid}) r ls mid →
        r = true ∧ ls = [] ∧ mid = held ∪ {versionUid} ∨
          r = false ∧ ls = [.setStatus] ∧ mid = held := by
    rintro r ls mid (hskip | hset)
    · exact .inl hskip
    · obtain ⟨⟨-, ⟨rfl, rfl⟩ | ⟨rfl, rfl⟩⟩, rfl⟩ := (exec_guarded leaves_step hmem).mp hset
      · exact .inl ⟨rfl, rfl, rfl⟩
      · exact .inr ⟨rfl, rfl, sdiff_union_of_notMem hheld⟩
  rcases exec_seq_step.mp h with hcounted | ⟨-, rfl, rfl⟩
  · rcases hcounted with ⟨ks, ls, mid, hfirst, hlast, rfl⟩ | ⟨-, hfirst⟩
    · rcases hset hfirst with ⟨-, rfl, rfl⟩ | ⟨hok, -⟩
      · obtain ⟨rfl, rfl | rfl⟩ := hunlocked hlast
        all_goals simp
      · cases hok
    · rcases hset hfirst with ⟨hok, -⟩ | ⟨-, rfl, rfl⟩
      · cases hok
      · simp
  · simp

theorem exec_deepScrub (h : (deepScrub versionUid).Exec taken held ok raised after) :
    DeepScrubBalanced raised ∧ after = held ∨
      ¬ DeepScrubBalanced raised ∧ versionUid ∉ held ∧ after = held ∪ {versionUid} := by
  rcases exec_start (leaves_step.seq leaves_step) h with
    ⟨-, rfl, rfl⟩ | ⟨-, rfl, hbody⟩ | ⟨hheld, ks, ls, hbody, hrest, rfl⟩
  · exact .inl ⟨by simp [DeepScrubBalanced], rfl⟩
  · obtain ⟨-, ⟨hok, -⟩ | ⟨-, rfl | rfl⟩⟩ := exec_two_steps hbody
    · cases hok
    · exact .inl ⟨by simp [DeepScrubBalanced], rfl⟩
    · exact .inl ⟨by simp [DeepScrubBalanced], rfl⟩
  · obtain ⟨-, ⟨-, rfl⟩ | ⟨hok, -⟩⟩ := exec_two_steps hbody
    swap
    · cases hok
    rw [List.nil_append]
    rcases hrest with ⟨ks, ms, mid, hloop, hfinish, rfl⟩ | ⟨-, hloop⟩
    · rcases exec_deepScrubLoop hheld hloop with ⟨-, rfl, rfl⟩ | ⟨hok, -⟩ | ⟨hok, -⟩
      · obtain ⟨-, hclose, hcache, ⟨hcount, rfl⟩ | ⟨hcount, rfl⟩⟩ :=
          exec_finishDeepScrub hheld hfinish
        · exact .inl ⟨⟨hcount, .inr ⟨hclose, hcache⟩⟩, rfl⟩
        · exact .inr ⟨fun hbal => hbal.1 hcount, hheld, rfl⟩
      · cases hok
      · cases hok
    · rcases exec_deepScrubLoop hheld hloop with ⟨hok, -⟩ | ⟨-, hbal, rfl⟩ | ⟨-, hbal, rfl⟩
      · cases hok
      · exact .inl ⟨hbal, rfl⟩
      · exact .inr ⟨hbal, hheld, rfl⟩

/-- What is kept is a lock that was not held before. -/
theorem eq_iff_of_kept {P : Prop} (h : P ∧ after = held ∨
    ¬ P ∧ versionUid ∉ held ∧ after = held ∪ {versionUid}) : after = held ↔ P := by
  rcases h with ⟨hbal, rfl⟩ | ⟨hbal, hheld, rfl⟩
  · exact ⟨fun _ => hbal, fun _ => rfl⟩
  · exact ⟨fun heq => absurd heq (union_ne_self hheld), fun h => absurd h hbal⟩

end Benji.Balance

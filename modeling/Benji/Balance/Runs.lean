import Benji.Lib.LockRuns
import Benji.Balance.Operations
import Benji.Backup.Full
import Benji.Backup.Locks
import Benji.Restore.Locks
import Benji.Scrub.Locks

/-! The operations as modelled elsewhere are runs of the flows: what a process holds afterwards,
and what others hold, is what the flows say. -/
namespace Benji
open Lib Balance

variable {κ : Type} {me : Process} {others : Set Lock}

/-- The names of the locks that somebody else holds. -/
def takenNames (me : Process) (others : Set Lock) : Set String :=
  {n | ∃ l ∈ others, l.owner ≠ me ∧ l.lockName = n}

/-- Runs of `p`, with the world in its state, against a flow of locks. -/
abbrev Follows {σ α : Type} (view : σ → World κ) (me : Process) (others : Set Lock)
    (p : Proc Error σ α) (F : Flow) : Prop :=
  Implements (fun s held => (view s).Holds me held others) (takenNames me others) p F

theorem World.Holds.isLocked_iff {w : World κ} {n : String} {names : Set String}
    (h : w.Holds me names others) :
    Locking.isLocked n w = true ↔ n ∈ names ∨ n ∈ takenNames me others := by
  have hheld := h
  obtain ⟨locks, ⟨rfl, -⟩, hlocks⟩ := h
  constructor
  · intro hlocked
    obtain ⟨l, hl⟩ := Option.isSome_iff_exists.mp hlocked
    obtain ⟨hmem, hname⟩ := Table.find?_eq_some.mp hl
    by_cases howner : l.owner = me
    · refine .inl ((hlocks.own n).mp ?_)
      exact LockTable.holds_iff.mpr ⟨l, hmem, hname, howner⟩
    · exact .inr ⟨l, (hlocks.others l howner).mp hmem, howner, hname⟩
  · rintro (hn | ⟨l, hl, howner, hname⟩)
    · exact hheld.isLocked_of_mem hn
    · have hmem := (hlocks.others l howner).mpr hl
      have hfind : w.db.locks.find? n = some l := Table.find?_eq_some.mpr ⟨hmem, hname⟩
      rw [Locking.isLocked, hfind]
      rfl

namespace Locking
variable {versionUid reason : String}

theorem follows_lockVersion : Follows id me others
    (lockVersion (κ := κ) me versionUid reason) (.lock (versionLockName versionUid)) := by
  intro w r u held hw h
  change w.Holds me held others at hw
  have hlocked := hw.isLocked_iff (n := versionLockName versionUid)
  cases r with
  | ok _ =>
    obtain ⟨hheld, hu⟩ := holds_lock.returns hw h
    obtain ⟨-, ho | hfree, -⟩ := returns_lock.mp h
    · cases ho
    rw [hfree] at hlocked
    have hno : versionLockName versionUid ∉ takenNames me others :=
      fun ht => Bool.noConfusion (hlocked.mpr (.inr ht))
    exact ⟨[], _, ⟨rfl, .inl ⟨hheld, hno, rfl, rfl⟩⟩, hu⟩
  | error e =>
    refine ⟨[], held, ⟨rfl, .inr ⟨?_, rfl, rfl⟩⟩, holds_lock.raises hw h⟩
    by_contra hno
    have hfree : isLocked (versionLockName versionUid) w = false :=
      Bool.eq_false_iff.mpr (hlocked.not.mpr hno)
    have hheld : heldBy me (versionLockName versionUid) w = false :=
      Bool.eq_false_iff.mpr fun hheld => hno (.inl (hw.heldBy_iff.mp hheld))
    exact Proc.Raises.not_returns h (returns_lock.mpr ⟨hheld, .inr hfree, rfl⟩)

theorem follows_updateVersionLock : Follows id me others
    (updateVersionLock (κ := κ) me versionUid reason) (.update (versionLockName versionUid)) := by
  intro w r u held hw h
  cases r with
  | ok _ =>
    obtain ⟨hheld, hu⟩ := holds_updateLock.returns hw h
    exact ⟨[], held, ⟨rfl, rfl, .inl ⟨hheld, rfl⟩⟩, hu⟩
  | error e =>
    obtain ⟨hheld, hu⟩ := holds_updateLock.raises hw h
    exact ⟨[], held, ⟨rfl, rfl, .inr ⟨hheld, rfl⟩⟩, hu⟩

theorem follows_unlockVersion : Follows id me others
    (unlockVersion (κ := κ) me versionUid) (.unlock (versionLockName versionUid)) := by
  intro w r u held hw h
  cases r with
  | ok _ =>
    obtain ⟨hheld, hu⟩ := holds_unlock.returns hw h
    exact ⟨[], _, ⟨rfl, .inl ⟨hheld, rfl, rfl⟩⟩, hu⟩
  | error e =>
    obtain ⟨hheld, hu⟩ := holds_unlock.raises hw h
    exact ⟨[], held, ⟨rfl, .inr ⟨hheld, rfl, rfl⟩⟩, hu⟩

end Locking

theorem follows_unlockIfLocked {versionUid : String} : Follows id me others
    (unlockIfLocked (κ := κ) me versionUid)
    (.unlockIfLocked (Locking.versionLockName versionUid)) := by
  intro w r u held hw h
  change w.Holds me held others at hw
  have hlocked := hw.isLocked_iff (n := Locking.versionLockName versionUid)
  unfold unlockIfLocked Locking.isVersionLocked at h
  split_ifs at h with hyes
  · cases r with
    | ok _ =>
      obtain ⟨hheld, hu⟩ := Locking.holds_unlock.returns hw h
      exact ⟨[], _, ⟨rfl, .inl ⟨hheld, rfl, rfl⟩⟩, hu⟩
    | error e =>
      obtain ⟨hheld, hu⟩ := Locking.holds_unlock.raises hw h
      have htaken := (hlocked.mp hyes).resolve_left hheld
      exact ⟨[], held, ⟨rfl, .inr (.inl ⟨hheld, htaken, rfl, rfl⟩)⟩, hu⟩
  · cases h
    have hno := hlocked.not.mp hyes
    exact ⟨[], held, ⟨rfl, .inr (.inr ⟨fun hn => hno (.inl hn), fun ht => hno (.inr ht), rfl,
      rfl⟩)⟩, hw⟩

/-- What does not change the lock table is a step. -/
theorem follows_of_keeps {σ α : Type} {view : σ → World κ} {p : Proc Error σ α} {k : Step}
    (h : ∀ locks, p.Keeps fun s => (view s).HasLocks locks) :
    Follows view me others p (.step k) :=
  .of_keeps fun _ => World.Holds.keeps h

theorem follows_unlockAndRaise {α : Type} {versionUid : String} {e : Error} :
    Follows id me others (do
      Locking.unlockVersion me versionUid
      Proc.raise e : Action κ α)
      (.seq (.unlock (Locking.versionLockName versionUid)) .raise) :=
  Locking.follows_unlockVersion.bind fun _ => .raise

/-! ### Backups -/

section Backup
variable {S : Settings κ} {v : Version} {base : Option String} {due : ℕ → Bool}

theorem follows_lockBase : Follows id me others (lockBase (κ := κ) me true base)
    (Balance.lockBase (base.map Locking.versionLockName)) := by
  cases base with
  | none => exact .pure
  | some uid => exact Locking.follows_lockVersion

theorem follows_unlockBase : Follows id me others (unlockBase (κ := κ) me true base)
    (Balance.unlockBase (base.map Locking.versionLockName)) := by
  cases base with
  | none => exact .pure
  | some uid => exact follows_unlockIfLocked

theorem follows_updateVersion {blockSize size : Option ℕ} :
    Follows id S.me others (updateVersion S v blockSize size base true due)
      (Balance.updateVersion (base.map Locking.versionLockName)
        (Locking.versionLockName v.uid)) := by
  refine (follows_of_keeps fun _ => keeps_locks_checkBase).bind fun sizes => ?_
  refine .modify_bind (fun w _ h => h.of_hasLocks fun _ hw => ⟨hw.1, hw.2⟩) ?_
  refine .bind_pure (.tryFinally (.tryExcept ?_ fun e => ?_) follows_unlockBase)
  · refine follows_lockBase.bind fun _ => Locking.follows_lockVersion.bind fun _ => ?_
    refine follows_of_keeps fun locks => Proc.Keeps.get.bind fun w => ?_
    exact keeps_locks_prepareBlocks.bind fun _ => Proc.Keeps.modify fun _ h => h.commit
  · exact follows_unlockIfLocked.bind fun _ => .raise

variable [DecidableEq κ] {io : Source} {hints : Option (List Hint)} {sched : Schedule}
  {sparseBlocks readBlocks : List ℕ}

theorem follows_checkBlock {date : ℕ → ℕ} {b : Block κ} :
    Follows id S.me others (checkBlock S v io date b)
      (Balance.sanityCheck (Locking.versionLockName v.uid)) := by
  intro w r u held hw h
  unfold checkBlock at h
  split at h
  · cases h
    exact ⟨[.readIgnored], held, .inr (LockFlow.exec_seq_step.mpr (.inr ⟨rfl, rfl, rfl⟩)), hw⟩
  · split at h
    · cases h
      exact ⟨[], held, .inl ⟨rfl, rfl, rfl⟩, hw⟩
    · have hremove : (Proc.modify (removeVersion v date) : Action κ Unit).Keeps
          fun w => w.Holds S.me held others :=
        Proc.Keeps.modify fun w hw => hw.of_hasLocks fun _ h => ⟨h.1, h.1⟩
      have hmismatch : Follows id S.me others (do
          Proc.modify (removeVersion v date)
          Locking.unlockVersion S.me v.uid
          Proc.raise (.inputDataError
            "Source changed in regions outside of ones indicated by the hints.") : Action κ Unit)
          (Balance.sanityCheck (Locking.versionLockName v.uid)) := by
        refine .either_right (.seq_step (.either_right ?_))
        refine Implements.bind ?_ fun _ => follows_unlockAndRaise
        exact follows_of_keeps fun _ => Proc.Keeps.modify fun _ h => ⟨h.1, h.1⟩
      exact hmismatch hw h

theorem follows_checkHints : Follows id S.me others
    (checkHints S v io hints base sparseBlocks readBlocks sched)
    (Balance.sanityCheck (Locking.versionLockName v.uid)) := by
  intro w r u held hw h
  unfold checkHints at h
  split at h
  · unfold sanityCheck at h
    dsimp only at h
    split at h
    · exact Implements.forEach (fun _ _ _ => exec_sanityCheck_returns)
        (fun _ _ => follows_checkBlock) hw h
    · cases h
  · cases h
    exact ⟨[], held, .inl ⟨rfl, rfl, rfl⟩, hw⟩

theorem follows_copyBlocks : Follows id S.me others
    (copyBlocks S v io sparseBlocks readBlocks sched)
    (Balance.copyBlocks (Locking.versionLockName v.uid)) := by
  refine .tryFinally (.tryExcept ?_ fun _ => follows_unlockAndRaise) (.seq_step ?_)
  · exact follows_of_keeps fun locks => Loop.keeps_locks_run.zoom (fun _ h => h) fun _ h => h
  · exact follows_of_keeps fun _ => Proc.Keeps.modify fun _ h => h.commit

theorem follows_doCreateBackup : Follows id S.me others
    (doCreateBackup S v io hints base sched)
    (Balance.doCreateBackup (Locking.versionLockName v.uid)) := by
  have hlast : ∀ {f : World κ → World κ} {k : Step},
      (∀ w locks, w.HasLocks locks → (f w).HasLocks locks) →
      Follows id S.me others (Proc.modify f : Action κ Unit) (.step k) :=
    fun hf => follows_of_keeps fun locks => Proc.Keeps.modify fun w => hf w locks
  refine Locking.follows_updateVersionLock.bind fun _ => ?_
  refine Implements.bind (follows_of_keeps fun _ => keeps_locks_blocksToCopy) fun sets => ?_
  refine follows_checkHints.bind fun _ => follows_copyBlocks.bind fun x => ?_
  refine .step_bind (fun _ => Proc.Keeps.raiseIf) fun _ => ?_
  refine Implements.bind (.of_keeps fun _ => Proc.Keeps.raiseIf) fun _ => ?_
  refine Implements.bind (hlast fun _ _ h => ⟨h.1, h.1⟩) fun _ => ?_
  refine Implements.bind (follows_of_keeps fun _ => keeps_locks_metadataBackup) fun _ => ?_
  refine Implements.bind (hlast fun _ _ h => ⟨h.1, h.1⟩) fun _ => ?_
  exact .bind_pure Locking.follows_unlockVersion

theorem follows_backup {source : Option Source} : Follows id S.me others
    (backup S v source hints base sched)
    (Balance.backup (base.map Locking.versionLockName) (Locking.versionLockName v.uid)) := by
  refine Implements.bind (.of_keeps fun _ => Proc.Keeps.ofOption) fun io => ?_
  refine follows_updateVersion.bind_of_returns fun w v' u hv => ?_
  obtain ⟨n, m, t, -, rfl, -⟩ := updateVersion_spec hv
  exact .bind_pure follows_doCreateBackup

end Backup

/-! ### Scrubs and restores -/

section Scrub
variable {S : Settings κ} {versionUid : String} {sample : Scrub.Sample} {sched : Scrub.Schedule}
open Scrub

theorem follows_scrubUnlock : Follows Scrub.world S.me others (unlock (κ := κ) S versionUid)
    (.unlock (Locking.versionLockName versionUid)) :=
  Locking.follows_unlockVersion.onPart fun _ _ => rfl

theorem follows_scrubUnlockAndRaise {α : Type} {e : Error} :
    Follows Scrub.world S.me others (unlockAndRaise (α := α) (κ := κ) S versionUid e)
      (.seq (.unlock (Locking.versionLockName versionUid)) .raise) :=
  follows_scrubUnlock.bind fun _ => .raise

theorem follows_scrub [DecidableEq κ] :
    Follows Scrub.world S.me others (scrub S versionUid sample sched)
      (Balance.scrub (Locking.versionLockName versionUid)) := by
  refine Implements.bind (Locking.follows_lockVersion.onPart fun _ _ => rfl) fun _ => ?_
  refine Implements.bind (.tryExcept ?_ fun _ => follows_scrubUnlockAndRaise) fun v => ?_
  · exact follows_of_keeps fun _ => keeps_locks_getVersion
  refine Implements.bind (.tryFinally ?_ follows_scrubUnlock) fun _ => ?_
  · refine follows_of_keeps fun locks => keeps_locks_getByName.bind fun i => ?_
    refine keeps_locks_scrubPrepare.bind fun _ => keeps_locks_work.bind fun _ => ?_
    exact keeps_locks_forCompleted fun _ => keeps_locks_scrubEntry
  refine .get_bind fun s => ?_
  refine Implements.bind (.of_keeps fun _ => Proc.Keeps.raiseIf) fun _ => ?_
  exact .of_keeps fun _ => Proc.Keeps.raiseIf.bind fun _ => Proc.Keeps.raiseIf

theorem follows_finish {v : Version} :
    Follows Scrub.world S.me others (finish S versionUid v sample)
      (Balance.finishDeepScrub (Locking.versionLockName versionUid)) := by
  refine .get_bind fun s => Implements.bind (.of_keeps fun _ => Proc.Keeps.raiseIf) fun _ => ?_
  refine Implements.bind (.either_left (.modify fun s held h => ?_)) fun _ => ?_
  · split
    · exact h.of_hasLocks fun _ hw => ⟨hw.1, hw.1⟩
    · exact h
  · exact follows_scrubUnlock.bind fun _ => .of_keeps fun _ => Proc.Keeps.raiseIf

theorem follows_deepScrub [DecidableEq κ] {source : Option Source} :
    Follows Scrub.world S.me others (deepScrub S versionUid source sample sched)
      (Balance.deepScrub (Locking.versionLockName versionUid)) := by
  refine Implements.bind (Locking.follows_lockVersion.onPart fun _ _ => rfl) fun _ => ?_
  refine Implements.bind (.tryExcept ?_ fun _ => follows_scrubUnlockAndRaise) fun v => ?_
  · exact .seq_last (follows_of_keeps fun _ => keeps_locks_getVersion)
  refine .of_bind (fun _ => World.Holds.keeps fun _ => keeps_locks_getByName) ?_ fun i => ?_
  · rintro s e t ⟨⟩
  refine .get_bind fun s => ?_
  refine Implements.bind (.tryFinally (.tryExcept ?_ fun _ => follows_scrubUnlockAndRaise) ?_)
    fun _ => follows_finish
  · exact follows_of_keeps fun _ => keeps_locks_deepScrubBlocks
  · exact .seq_step (follows_of_keeps fun _ => Proc.Keeps.modify fun _ h => h)

end Scrub

section Restore
variable {S : Settings κ} {versionUid url : String} {sparse force : Bool} {sched : Restore.Schedule}
open Restore

theorem follows_restoreUnlock : Follows Restore.world S.me others
    (onWorld (Locking.unlockVersion (κ := κ) S.me versionUid))
    (.unlock (Locking.versionLockName versionUid)) :=
  Locking.follows_unlockVersion.onPart fun _ _ => rfl

theorem follows_restore [DecidableEq κ] :
    Follows Restore.world S.me others (restore S versionUid url sparse force sched)
      (Balance.restore (Locking.versionLockName versionUid)) := by
  refine Implements.bind (Locking.follows_lockVersion.onPart fun _ _ => rfl) fun _ => ?_
  refine Implements.bind (.tryExcept ?_ fun _ => follows_restoreUnlock.bind fun _ => .raise)
    fun v => ?_
  · exact .seq_last (follows_of_keeps fun _ => keeps_locks_prepare)
  refine Implements.bind (.tryFinally ?_ (.seq_step follows_restoreUnlock)) fun _ => ?_
  · exact follows_of_keeps fun _ => keeps_locks_restoreBlocks
  · refine .get_bind fun R => ?_
    exact .of_keeps fun _ => Proc.Keeps.raiseIf.bind fun _ => Proc.Keeps.raiseIf

end Restore

/-! ### What an operation leaves locked -/

/-- Every run of `p` is an execution of `F`, which leaves others' locks alone, and ends with the
locks it began with if and only if `balanced` holds of them and of the steps that raised. -/
structure BalancedWhen {σ α : Type} (view : σ → World κ) (me : Process) (others : Set Lock)
    (p : Proc Error σ α) (F : Flow) (balanced : Set String → List Step → Prop) : Prop where
  follows : Follows view me others p F
  balanced_iff : ∀ ⦃taken held after ok raised⦄, F.Exec taken held ok raised after →
    (after = held ↔ balanced held raised)

section Operations
variable [DecidableEq κ] (S : Settings κ) (others : Set Lock)

theorem backup_balanced (v : Version) (source : Option Source) (hints : Option (List Hint))
    (base : Option String) (sched : Schedule) :
    BalancedWhen id S.me others (backup S v source hints base sched)
      (Balance.backup (base.map Locking.versionLockName) (Locking.versionLockName v.uid))
      (BackupBalanced (base.map Locking.versionLockName) (Locking.versionLockName v.uid)) :=
  ⟨follows_backup, fun _ _ _ _ _ => backup_balanced_iff⟩

theorem scrub_balanced (versionUid : String) (sample : Scrub.Sample) (sched : Scrub.Schedule) :
    BalancedWhen Scrub.world S.me others (scrub S versionUid sample sched)
      (Balance.scrub (Locking.versionLockName versionUid)) fun _ _ => True :=
  ⟨follows_scrub, fun _ _ _ _ _ h => iff_true_intro (exec_scrub h)⟩

theorem deepScrub_balanced (versionUid : String) (source : Option Source) (sample : Scrub.Sample)
    (sched : Scrub.Schedule) :
    BalancedWhen Scrub.world S.me others (deepScrub S versionUid source sample sched)
      (Balance.deepScrub (Locking.versionLockName versionUid)) fun _ => DeepScrubBalanced :=
  ⟨follows_deepScrub, fun _ _ _ _ _ h => eq_iff_of_kept (exec_deepScrub h)⟩

theorem restore_balanced (versionUid url : String) (sparse force : Bool)
    (sched : Restore.Schedule) :
    BalancedWhen Restore.world S.me others (restore S versionUid url sparse force sched)
      (Balance.restore (Locking.versionLockName versionUid)) fun _ => RestoreBalanced :=
  ⟨follows_restore, fun _ _ _ _ _ h => eq_iff_of_kept (exec_restore h)⟩

end Operations

/-- A backup with a hint that reaches behind its source. -/
def hintedBackup : Action Bytes Version :=
  backup exampleSettings exampleVersion (some exampleSource) (some [⟨0, 8, true⟩]) none
    (exampleSchedule [])

end Benji

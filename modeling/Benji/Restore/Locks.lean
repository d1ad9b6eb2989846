import Benji.Restore.Loop
import Benji.Database.Held

/-! The loops of a restore leave the lock table alone. -/
namespace Benji
open Lib

variable {κ : Type} {locks : Table Lock.lockName} {w : World κ}

namespace Restore
variable {v : Version} {sparse : Bool} {R : Restore κ}

theorem hasLocks_setBlockValid {uid : Option BlockUid} {valid : Bool}
    (h : R.world.HasLocks locks) : (R.setBlockValid uid valid).world.HasLocks locks := ⟨h.1, h.1⟩

theorem keeps_locks_ioStep {e : Event} :
    (ioStep v e : RestoreAction κ Unit).Keeps fun R => R.world.HasLocks locks := by
  intro R r R' h hR
  cases e with
  | next => cases h
  | read idx => cases h
  | raise x =>
    cases h
    exact hR
  | collect idx =>
    unfold ioStep at h
    dsimp only at h
    split at h
    · cases h
    · cases h
      exact hR
  | write idx =>
    unfold ioStep at h
    dsimp only at h
    split at h
    · cases h
    · split at h
      · cases h
        exact hR
      · cases h
        exact hR

theorem keeps_locks_sparseStep {e : Event} :
    (sparseStep v sparse e : RestoreAction κ Unit).Keeps fun R => R.world.HasLocks locks := by
  intro R r R' h hR
  cases e with
  | read idx => cases h
  | raise x => exact keeps_locks_ioStep (v := v) (e := .raise x) h hR
  | write idx => exact keeps_locks_ioStep (v := v) (e := .write idx) h hR
  | collect idx => exact keeps_locks_ioStep (v := v) (e := .collect idx) h hR
  | next =>
    unfold sparseStep at h
    dsimp only at h
    split at h
    · cases h
    · split_ifs at h
      all_goals
        cases h
        exact hR

theorem keeps_locks_handleReadError {e : Error} :
    (handleReadError e : RestoreAction κ Unit).Keeps fun R => R.world.HasLocks locks := by
  intro R r R' h hR
  unfold handleReadError at h
  split at h
  · cases h
    exact hasLocks_setBlockValid hR
  · cases h
    exact hasLocks_setBlockValid hR
  · cases h
    exact hR

theorem keeps_locks_checkData [DecidableEq κ] {S : Settings κ} {b : Block κ} {d : Bytes}
    {m : Metadata κ} : (checkData S b d m).Keeps fun R => R.world.HasLocks locks := by
  intro R r R' h hR
  unfold checkData at h
  split at h
  · cases h
    exact hasLocks_setBlockValid hR
  · cases h
    exact hR
  · split_ifs at h
    · cases h
      exact hR
    · cases h
      exact hasLocks_setBlockValid hR

theorem keeps_locks_dataStep [DecidableEq κ] {S : Settings κ} {e : Event} :
    (dataStep S v e).Keeps fun R => R.world.HasLocks locks := by
  intro R r R' h hR
  cases e with
  | next => cases h
  | raise x => exact keeps_locks_ioStep (v := v) (e := .raise x) h hR
  | write idx => exact keeps_locks_ioStep (v := v) (e := .write idx) h hR
  | collect idx => exact keeps_locks_ioStep (v := v) (e := .collect idx) h hR
  | read idx =>
    unfold dataStep at h
    dsimp only at h
    split at h
    · cases h
    · split at h
      · exact keeps_locks_handleReadError h hR
      · exact keeps_locks_checkData h hR

theorem keeps_locks_waitForAll {reads : Bool} :
    (waitForAll reads : RestoreAction κ Unit).Keeps fun R => R.world.HasLocks locks := by
  intro R r R' h hR
  unfold waitForAll at h
  obtain ⟨-, heq⟩ := Option.ite_none_right_eq_some.mp h
  cases heq
  exact hR

theorem keeps_locks_restoreBlocks [DecidableEq κ] {S : Settings κ} {sched : Schedule} :
    (restoreBlocks S v sparse sched).Keeps fun R => R.world.HasLocks locks := by
  have hfirst : (Proc.forEach (sparseStep v sparse) sched.sparseEvents).Keeps
      fun R : Restore κ => R.world.HasLocks locks :=
    Proc.Keeps.forEach fun _ _ => keeps_locks_sparseStep
  have hlast : (Proc.forEach (dataStep S v) sched.dataEvents).Keeps
      fun R : Restore κ => R.world.HasLocks locks :=
    Proc.Keeps.forEach fun _ _ => keeps_locks_dataStep
  refine Proc.Keeps.bind (Proc.Keeps.modify fun _ h => h) fun _ => ?_
  refine Proc.Keeps.bind hfirst fun _ => ?_
  refine Proc.Keeps.bind keeps_locks_waitForAll fun _ => ?_
  refine Proc.Keeps.bind Proc.Keeps.get fun _ => ?_
  refine Proc.Keeps.bind Proc.Keeps.raiseIf fun _ => ?_
  refine Proc.Keeps.bind (Proc.Keeps.modify fun _ h => h) fun _ => ?_
  exact Proc.Keeps.bind hlast fun _ => keeps_locks_waitForAll

theorem keeps_locks_prepare {versionUid url : String} {force : Bool} :
    (prepare versionUid url force : RestoreAction κ Version).Keeps
      fun R => R.world.HasLocks locks := by
  have hopen : ∀ size : ℕ, (openW url size force : RestoreAction κ Unit).Keeps
      fun R => R.world.HasLocks locks := by
    intro size R r R' h hR
    unfold openW at h
    split at h
    · split_ifs at h
      all_goals
        cases h
        exact hR
    · split_ifs at h
      all_goals
        cases h
        exact hR
  exact Proc.Keeps.get.bind fun _ => Proc.Keeps.ofOption.bind fun v =>
    (hopen v.size).bind fun _ => Proc.Keeps.pure

end Restore
end Benji

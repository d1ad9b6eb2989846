import Benji.Backup.Run
import Benji.Database.Held

/-! What a backup does between its calls of `Locking` leaves the lock table alone. -/
namespace Benji
open Lib

variable {κ : Type} {locks : Table Lock.lockName} {v : Version}

theorem World.HasLocks.timedCommit {w : World κ} {due : Bool} (h : w.HasLocks locks) :
    (w.timedCommit due).HasLocks locks := by
  unfold World.timedCommit
  split
  · exact h.commit
  · exact h

section UpdateVersion
variable {S : Settings κ} {due : ℕ → Bool}

theorem keeps_locks_createBlocks {blocks : List (Block κ)} {b : Bool} :
    (createBlocks v blocks b).Keeps fun w => w.HasLocks locks := by
  intro w r u h hw
  have hrollback : (Locking.rollbackAndRaise .integrityError : Action κ Unit).Keeps
      fun w => w.HasLocks locks := Locking.keeps_rollbackAndRaise fun _ h => h.rollback
  unfold createBlocks at h
  split at h
  · exact hrollback h hw
  · cases h
    exact World.HasLocks.timedCommit (w := w.setBlocks _) hw

theorem keeps_locks_prepareBlocks {idxs : List ℕ} {old blocks : List (Block κ)} :
    (prepareBlocks S v due idxs old blocks).Keeps fun w => w.HasLocks locks := by
  induction idxs generalizing old blocks with
  | nil => exact keeps_locks_createBlocks
  | cons idx rest ih =>
    unfold prepareBlocks
    refine Proc.Keeps.raiseIf.bind fun _ => ?_
    dsimp only
    split
    · exact keeps_locks_createBlocks.bind fun _ => ih
    · exact ih

theorem keeps_locks_checkBase {blockSize size : Option ℕ} {locking : Bool} {base : Option String} :
    (checkBase (κ := κ) v blockSize size locking base).Keeps fun w => w.HasLocks locks := by
  cases base with
  | none =>
    exact Proc.Keeps.ofOption.bind fun _ => Proc.Keeps.ofOption.bind fun _ => Proc.Keeps.pure
  | some uid =>
    refine Proc.Keeps.get.bind fun w => Proc.Keeps.raiseIf.bind fun _ => ?_
    refine Proc.Keeps.ofOption.bind fun _ => Proc.Keeps.raiseIf.bind fun _ => ?_
    exact Proc.Keeps.raiseIf.bind fun _ => Proc.Keeps.raiseIf.bind fun _ => Proc.Keeps.pure

end UpdateVersion

namespace Loop
variable {L : Loop κ}

theorem hasLocks_setBlock {idx size : ℕ} {uid : Option BlockUid} {checksum : Option κ} {due : Bool}
    (h : L.world.HasLocks locks) :
    (L.setBlock v idx uid checksum size due).world.HasLocks locks :=
  World.HasLocks.timedCommit (w := L.world.setBlocks _) h

theorem keeps_locks_queueBlock {sparseBlocks readBlocks : List ℕ} {due : ℕ → Bool} {b : Block κ} :
    (queueBlock v sparseBlocks readBlocks due b).Keeps fun L => L.world.HasLocks locks := by
  intro L r L' h hL
  unfold queueBlock at h
  split_ifs at h
  · cases h
    exact hL
  · split at h
    · cases h
      exact hasLocks_setBlock hL
    · cases h
      exact hL
    · cases h
      exact hL
  · cases h
    exact hL

theorem hasLocks_handleRead [DecidableEq κ] {S : Settings κ} {b : Block κ} {d : Bytes} {pick : ℕ}
    {due : Bool} (h : L.world.HasLocks locks) :
    (L.handleRead S v b d pick due).world.HasLocks locks := by
  unfold handleRead handleFound
  split
  · exact hasLocks_setBlock (L := L.takeRead b d) h
  · exact hasLocks_setBlock (L := L.takeRead b d) h
  · exact h

theorem keeps_locks_step [DecidableEq κ] {S : Settings κ} {io : Source} {e : Event} :
    (step S v io e).Keeps fun L => L.world.HasLocks locks := by
  intro L r L' h hL
  cases e with
  | raise x =>
    cases h
    exact hL
  | read idx pick due =>
    unfold step at h
    dsimp only at h
    split at h
    · cases h
    · split at h
      · cases h
        exact hL
      · cases h
        exact hasLocks_handleRead hL
  | write idx =>
    unfold step at h
    dsimp only at h
    split at h
    · cases h
    · cases h
      exact hL
  | collect idx due =>
    unfold step at h
    dsimp only at h
    split at h
    · cases h
    · split_ifs at h
      · cases h
        exact hasLocks_setBlock hL
      · cases h
        exact hL

theorem keeps_locks_run [DecidableEq κ] {S : Settings κ} {io : Source}
    {sparseBlocks readBlocks : List ℕ} {sched : Schedule} :
    (run S v io sparseBlocks readBlocks sched).Keeps fun L => L.world.HasLocks locks := by
  have hqueue : ∀ blocks : List (Block κ),
      (Proc.forEach (queueBlock v sparseBlocks readBlocks sched.queueDue) blocks).Keeps
        fun L => L.world.HasLocks locks :=
    fun _ => Proc.Keeps.forEach fun _ _ => keeps_locks_queueBlock
  have hsteps : (Proc.forEach (step S v io) sched.events).Keeps
      fun L => L.world.HasLocks locks :=
    Proc.Keeps.forEach fun _ _ => keeps_locks_step
  refine Proc.Keeps.get.bind fun L => (hqueue _).bind fun _ => hsteps.bind fun _ => ?_
  intro L r L' h hL
  unfold waitForAll at h
  obtain ⟨-, heq⟩ := Option.ite_none_right_eq_some.mp h
  cases heq
  exact hL

end Loop

theorem keeps_locks_blocksToCopy {size : ℕ} {hints : Option (List Hint)} :
    (blocksToCopy (κ := κ) v size hints).Keeps fun w => w.HasLocks locks := by
  unfold blocksToCopy
  split
  · exact Proc.Keeps.pure
  · exact Proc.Keeps.pure
  · exact Proc.Keeps.raiseIf.bind fun _ => Proc.Keeps.pure

theorem keeps_locks_metadataBackup {uid : String} {failure : Option Error} :
    (metadataBackup uid failure : Action κ Unit).Keeps fun w => w.HasLocks locks := by
  refine Proc.Keeps.get.bind fun w => Proc.Keeps.ofOption.bind fun _ => ?_
  cases failure with
  | none => exact Proc.Keeps.modify fun _ h => h
  | some e => exact Proc.Keeps.raise

end Benji

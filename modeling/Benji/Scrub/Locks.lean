import Benji.Scrub.DeepScrub
import Benji.Database.Held

/-! What a scrub does between its calls of `Locking` leaves the lock table alone. -/
namespace Benji.Scrub
open Lib

variable {κ : Type} {locks : Table Lock.lockName} {v : Version} {s t : Scrub κ} {i : ℕ}

theorem UpToReads.hasLocks (h : s.UpToReads t) (hs : s.world.HasLocks locks) :
    t.world.HasLocks locks := by
  rw [h.world]
  exact hs

theorem hasLocks_markInvalid {uid : Option BlockUid} {report : Bool}
    (h : s.world.HasLocks locks) : (s.markInvalid uid report).world.HasLocks locks := ⟨h.1, h.1⟩

theorem hasLocks_addHistory {storage : ℕ} {uid : Option BlockUid} (h : s.world.HasLocks locks) :
    (addHistory storage uid s).world.HasLocks locks := by
  cases uid with
  | none => exact h
  | some uid => exact h

theorem hasLocks_passed {storage : ℕ} {b : Block κ} (h : s.world.HasLocks locks) :
    (passed storage b s).world.HasLocks locks := by
  unfold passed
  apply hasLocks_addHistory
  split
  · exact h
  · exact ⟨h.1, h.1⟩

theorem keeps_locks_getVersion {uid : String} {deep : Bool} :
    (getVersion uid deep : ScrubAction κ Version).Keeps fun s => s.world.HasLocks locks :=
  Proc.Keeps.get.bind fun _ => Proc.Keeps.ofOption.bind fun _ => Proc.Keeps.raiseIf.bind fun _ =>
    Proc.Keeps.raiseIf.bind fun _ => Proc.Keeps.pure

theorem keeps_locks_getByName {storage : ℕ} :
    (getByName storage : ScrubAction κ ℕ).Keeps fun s => s.world.HasLocks locks := by
  rintro s r t ⟨⟩ hs
  exact hs

theorem hasLocks_submitReads {sample : Sample} {storage : ℕ} {deep : Bool}
    {blocks : List (Block κ)} (h : s.world.HasLocks locks) :
    (submitReads i sample storage deep blocks s).world.HasLocks locks := by
  induction blocks generalizing s with
  | nil => exact h
  | cons b blocks ih =>
    unfold submitReads
    split
    · exact ih h
    · exact ih h

theorem keeps_locks_scrubPrepare {S : Settings κ} {sample : Sample} {deep : Bool} :
    (scrubPrepare S v sample deep).Keeps fun s => s.world.HasLocks locks :=
  keeps_locks_getByName.bind fun _ => Proc.Keeps.modify fun _ h => hasLocks_submitReads h

theorem keeps_locks_work {jobs : List (ℕ × ℕ)} :
    (Proc.modify (work jobs) : ScrubAction κ Unit).Keeps fun s => s.world.HasLocks locks :=
  Proc.Keeps.modify fun s h => (UpToReads.of_work jobs s).hasLocks h

theorem keeps_locks_handleReadError {e : Error} :
    (handleReadError e : ScrubAction κ Unit).Keeps fun s => s.world.HasLocks locks := by
  intro s r t h hs
  unfold handleReadError at h
  split at h
  · cases h
    exact hasLocks_markInvalid hs
  · cases h
    exact hs

theorem keeps_locks_compareSource {source : Option Source} {b : Block κ} {d : Bytes} :
    (compareSource v source b d : ScrubAction κ Unit).Keeps fun s => s.world.HasLocks locks := by
  intro s r t h hs
  unfold compareSource at h
  split at h
  · cases h
    exact hs
  · split at h
    · cases h
      exact hs
    · split at h
      · cases h
        exact hs
      · cases h
        exact hs

theorem keeps_locks_deepScrubEntry [DecidableEq κ] {S : Settings κ} {source : Option Source}
    {entry : Block κ × ReadResult κ} :
    (deepScrubEntry S v source entry).Keeps fun s => s.world.HasLocks locks := by
  obtain ⟨b, e | ⟨d, m⟩⟩ := entry
  · exact keeps_locks_handleReadError
  intro s r t h hs
  change checkData S v source b (d.getD []) m s = some (r, t) at h
  unfold checkData at h
  split at h
  · cases h
    exact hasLocks_markInvalid hs
  · cases h
    exact hs
  · split at h
    · have hpassed : (compareSource v source b (d.getD []) >>= fun _ =>
          Proc.modify (passed v.storage.id b)).Keeps fun s : Scrub κ => s.world.HasLocks locks :=
        keeps_locks_compareSource.bind fun _ => Proc.Keeps.modify fun _ h => hasLocks_passed h
      exact hpassed h hs
    · cases h
      exact hasLocks_markInvalid hs

theorem keeps_locks_scrubEntry [DecidableEq κ] {entry : Block κ × ReadResult κ} :
    (scrubEntry v entry).Keeps fun s => s.world.HasLocks locks := by
  obtain ⟨b, e | ⟨d, m⟩⟩ := entry
  · exact keeps_locks_handleReadError
  intro s r t h hs
  unfold scrubEntry at h
  dsimp only at h
  split at h
  · cases h
    exact hasLocks_markInvalid hs
  · cases h
    exact hs
  · cases h
    exact hasLocks_addHistory hs

theorem keeps_locks_takeCompleted {round : Round} :
    (takeCompleted i round : ScrubAction κ (Block κ × ReadResult κ)).Keeps
      fun s => s.world.HasLocks locks := by
  intro s r t h hs
  unfold takeCompleted at h
  dsimp only at h
  split at h
  · cases h
  · split at h
    · cases h
    · cases h
      exact ((UpToReads.of_work round.work s).trans (UpToReads.of_runJob _ _)).hasLocks hs

theorem keeps_locks_forCompleted {body : Block κ × ReadResult κ → ScrubAction κ Unit}
    {rounds : List Round} (hbody : ∀ entry, (body entry).Keeps fun s => s.world.HasLocks locks) :
    (forCompleted i body rounds).Keeps fun s => s.world.HasLocks locks := by
  induction rounds with
  | nil =>
    intro s r t h hs
    unfold forCompleted at h
    split at h
    · cases h
      exact hs
    · cases h
  | cons round rounds ih =>
    intro s r t h hs
    unfold forCompleted at h
    split at h
    · cases h
      exact hs
    · have hround : (takeCompleted i round >>= fun entry => body entry >>= fun _ =>
          forCompleted i body rounds).Keeps fun s => s.world.HasLocks locks :=
        keeps_locks_takeCompleted.bind fun entry => (hbody entry).bind fun _ => ih
      exact hround h hs

theorem keeps_locks_deepScrubBlocks [DecidableEq κ] {S : Settings κ} {source : Option Source}
    {sample : Sample} {sched : Scrub.Schedule} :
    (deepScrubBlocks S v source sample sched i).Keeps fun s => s.world.HasLocks locks := by
  refine Proc.Keeps.bind (Proc.Keeps.modify fun _ h => h) fun _ => ?_
  refine keeps_locks_scrubPrepare.bind fun _ => keeps_locks_work.bind fun _ => ?_
  exact keeps_locks_forCompleted fun _ => keeps_locks_deepScrubEntry

end Benji.Scrub

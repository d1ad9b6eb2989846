import Mathlib.Data.Set.Insert
import Benji.Lib.Triple
import Benji.Database.Locking

/-! The locks that a process holds, apart from those of all others, and what the calls of
`Locking` make of the two. -/
namespace Benji
open Lib

variable {κ : Type}

/-- The lock table, which no session has pending changes of. -/
def World.HasLocks (w : World κ) (locks : Table Lock.lockName) : Prop :=
  w.db.locks = locks ∧ w.committed.locks = locks

namespace World.HasLocks
variable {w : World κ} {locks : Table Lock.lockName}

theorem commit (h : w.HasLocks locks) : w.commit.HasLocks locks := ⟨h.1, h.1⟩

theorem rollback (h : w.HasLocks locks) : w.rollback.HasLocks locks := ⟨h.2, h.2⟩

end World.HasLocks

/-- Locks are committed when they are put. -/
theorem Locking.hasLocks_putLock {l : Lock} (w : World κ) :
    (Locking.putLock l w).HasLocks (w.db.locks.put l) := ⟨rfl, rfl⟩

theorem Locking.hasLocks_eraseLock {lockName : String} (w : World κ) :
    (Locking.eraseLock lockName w).HasLocks (w.db.locks.erase lockName) := ⟨rfl, rfl⟩

namespace LockTable
variable {locks : Locks} {me : Process} {n m reason : String} {names : Set String}
  {others : Set Lock}

/-- The locks of `me` are those in `names`, the rows of all others those in `others`. -/
structure Held (locks : Locks) (me : Process) (names : Set String) (others : Set Lock) : Prop where
  own : ∀ n, holds locks me n = true ↔ n ∈ names
  others : ∀ l : Lock, l.owner ≠ me → (l ∈ locks ↔ l ∈ others)

theorem holds_erase : holds (locks.erase n) me m = true ↔ m ≠ n ∧ holds locks me m = true := by
  rw [holds_iff, holds_iff]
  simp only [Table.mem_erase]
  constructor
  · rintro ⟨l, ⟨hl, hne⟩, rfl, howner⟩
    exact ⟨hne, l, hl, rfl, howner⟩
  · rintro ⟨hne, l, hl, rfl, howner⟩
    exact ⟨l, ⟨hl, hne⟩, rfl, howner⟩

namespace Held

theorem put_free (h : Held locks me names others) (hfree : locks.find? n = none) :
    Held (locks.put ⟨n, me, reason⟩) me (names ∪ {n}) others := by
  constructor
  · intro m
    rw [holds_put, Set.mem_union, Set.mem_singleton_iff, ← h.own]
    by_cases hm : m = n
    · simp [hm]
    · simp [hm]
  · intro l howner
    have hne : ∀ k ∈ locks, k.lockName ≠ n := Table.find?_eq_none.mp hfree
    rw [Table.mem_put, ← h.others l howner]
    constructor
    · rintro (rfl | ⟨hl, -⟩)
      · exact absurd rfl howner
      · exact hl
    · intro hl
      exact .inr ⟨hl, hne l hl⟩

/-- The holder of a lock puts its row again. -/
theorem put_own (h : Held locks me names others) (hown : n ∈ names) :
    Held (locks.put ⟨n, me, reason⟩) me names others := by
  obtain ⟨k, hk, hname, hkowner⟩ := holds_iff.mp ((h.own n).mpr hown)
  constructor
  · intro m
    rw [holds_put]
    by_cases hm : m = n
    · simp [hm, hown]
    · simp [hm, h.own]
  · intro l howner
    rw [Table.mem_put, ← h.others l howner]
    constructor
    · rintro (rfl | ⟨hl, -⟩)
      · exact absurd rfl howner
      · exact hl
    · intro hl
      refine .inr ⟨hl, ?_⟩
      intro heq
      exact howner (by rw [Table.eq_of_key_eq hl hk (heq.trans hname.symm), hkowner])

theorem erase_own (h : Held locks me names others) (hown : n ∈ names) :
    Held (locks.erase n) me (names \ {n}) others := by
  obtain ⟨k, hk, hname, hkowner⟩ := holds_iff.mp ((h.own n).mpr hown)
  constructor
  · intro m
    rw [holds_erase, h.own, Set.mem_sdiff, Set.mem_singleton_iff, and_comm]
  · intro l howner
    rw [Table.mem_erase, ← h.others l howner, and_iff_left_iff_imp]
    intro hl heq
    exact howner (by rw [Table.eq_of_key_eq hl hk (heq.trans hname.symm), hkowner])

end Held
end LockTable

/-- What `me` holds and what others hold, in the session and in what it has committed. -/
def World.Holds (w : World κ) (me : Process) (names : Set String) (others : Set Lock) : Prop :=
  ∃ locks, w.HasLocks locks ∧ LockTable.Held locks me names others

namespace World.Holds
variable {w : World κ} {me : Process} {n : String} {names : Set String} {others : Set Lock}

theorem of_hasLocks {u : World κ} (h : w.Holds me names others)
    (hkeep : ∀ locks, w.HasLocks locks → u.HasLocks locks) : u.Holds me names others := by
  obtain ⟨locks, hlocks, hheld⟩ := h
  exact ⟨locks, hkeep locks hlocks, hheld⟩

theorem heldBy_iff (h : w.Holds me names others) :
    Locking.heldBy me n w = true ↔ n ∈ names := by
  obtain ⟨locks, hlocks, hheld⟩ := h
  rw [LockTable.heldBy_eq hlocks.1, hheld.own]

theorem isLocked_of_mem (h : w.Holds me names others) (hn : n ∈ names) :
    Locking.isLocked n w = true := by
  have hheld := h.heldBy_iff.mpr hn
  unfold Locking.heldBy at hheld
  unfold Locking.isLocked
  cases hfind : w.db.locks.find? n with
  | none => simp [hfind] at hheld
  | some l => rfl

/-- What `p` does not do to the lock table it does not do to what is held. -/
theorem keeps {σ α : Type} {view : σ → World κ} {p : Proc Error σ α}
    (h : ∀ locks, p.Keeps fun s => (view s).HasLocks locks) :
    p.Keeps fun s => (view s).Holds me names others := by
  rintro s r t hp ⟨locks, hlocks, hheld⟩
  exact ⟨locks, h locks hp hlocks, hheld⟩

end World.Holds

namespace Locking
open Proc (Triple)
variable {me : Process} {lockName versionUid reason : String} {lockedMsg : Option String}
  {names : Set String} {others : Set Lock}

theorem holds_rollbackAndRaise {α : Type} {e : Error} {Q : α → World κ → Prop} :
    Triple (fun w : World κ => w.Holds me names others) (rollbackAndRaise e) Q
      fun _ w => w.Holds me names others where
  returns _ _ _ _ hp := absurd hp returns_rollbackAndRaise
  raises := by
    intro w f u hw hp
    have hkeeps : (rollbackAndRaise e : Action κ α).Keeps fun w => w.Holds me names others :=
      keeps_rollbackAndRaise fun w hw => hw.of_hasLocks fun _ h => h.rollback
    exact hkeeps hp hw

/-- A lock is taken if nobody holds it; otherwise nothing changes. -/
theorem holds_lock : Triple (fun w : World κ => w.Holds me names others)
    (lock me lockName reason lockedMsg false)
    (fun _ w => lockName ∉ names ∧ w.Holds me (names ∪ {lockName}) others)
    fun _ w => w.Holds me names others where
  returns := by
    intro w _ u hw hp
    obtain ⟨hheld, hfree, rfl⟩ := returns_lock.mp hp
    have hno : lockName ∉ names := by
      rw [← hw.heldBy_iff, hheld]
      decide
    obtain ⟨locks, ⟨rfl, -⟩, hlocks⟩ := hw
    have hnone : w.db.locks.find? lockName = none := by simpa [isLocked] using hfree
    exact ⟨hno, _, hasLocks_putLock w, hlocks.put_free hnone⟩
  raises := by
    intro w e u hw hp
    unfold Proc.Raises lock at hp
    split_ifs at hp
    · exact holds_rollbackAndRaise (Q := fun _ _ => True) |>.raises hw hp
    · exact holds_rollbackAndRaise (Q := fun _ _ => True) |>.raises hw hp
    · cases hp

theorem holds_updateLock : Triple (fun w : World κ => w.Holds me names others)
    (updateLock me lockName reason) (fun _ w => lockName ∈ names ∧ w.Holds me names others)
    fun _ w => lockName ∉ names ∧ w.Holds me names others where
  returns := by
    intro w _ u hw hp
    obtain ⟨hheld, rfl⟩ := returns_updateLock.mp hp
    have hyes := hw.heldBy_iff.mp hheld
    obtain ⟨locks, ⟨rfl, -⟩, hlocks⟩ := hw
    exact ⟨hyes, _, hasLocks_putLock w, hlocks.put_own hyes⟩
  raises := by
    intro w e u hw hp
    unfold Proc.Raises updateLock at hp
    split_ifs at hp with hheld
    · cases hp
    · refine ⟨?_, holds_rollbackAndRaise (Q := fun _ _ => True) |>.raises hw hp⟩
      rw [← hw.heldBy_iff]
      exact hheld

/-- Only a lock that is held is released. -/
theorem holds_unlock : Triple (fun w : World κ => w.Holds me names others) (unlock me lockName)
    (fun _ w => lockName ∈ names ∧ w.Holds me (names \ {lockName}) others)
    fun _ w => lockName ∉ names ∧ w.Holds me names others where
  returns := by
    intro w _ u hw hp
    obtain ⟨hheld, rfl⟩ := returns_unlock.mp hp
    have hyes := hw.heldBy_iff.mp hheld
    obtain ⟨locks, ⟨rfl, -⟩, hlocks⟩ := hw
    exact ⟨hyes, _, hasLocks_eraseLock w, hlocks.erase_own hyes⟩
  raises := by
    intro w e u hw hp
    unfold Proc.Raises unlock at hp
    split_ifs at hp with hheld
    · cases hp
    · refine ⟨?_, holds_rollbackAndRaise (Q := fun _ _ => True) |>.raises hw hp⟩
      rw [← hw.heldBy_iff]
      exact hheld

/-- Whether it could be released or not, the lock is not held afterwards. -/
theorem not_held_of_unlock {w u : World κ} {r : Except Error Unit}
    (hw : w.Holds me names others) (h : unlock me lockName w = some (r, u)) :
    u.Holds me (names \ {lockName}) others := by
  cases r with
  | ok _ => exact (holds_unlock.returns hw h).2
  | error e =>
    obtain ⟨hno, hu⟩ := holds_unlock.raises hw h
    rw [Set.sdiff_singleton_eq_self hno]
    exact hu

theorem versionLockName_injective : Function.Injective versionLockName := by
  intro a b h
  have heq : toString a = toString b := by simpa [versionLockName] using h
  exact heq

end Locking
end Benji

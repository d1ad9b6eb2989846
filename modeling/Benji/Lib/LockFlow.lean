import Mathlib.Order.BooleanAlgebra.Set
import Mathlib.Tactic.Tauto

/-! The flow of control of a program that takes and releases locks: what is held when it returns
or raises, if any of its steps may raise. -/
namespace Lib

variable {ν κ : Type}

/-- A program over locks with names in `ν`; its other steps have labels in `κ`. -/
inductive LockFlow (ν κ : Type) where
  | skip
  /-- A step that leaves the locks alone, and may raise. -/
  | step (label : κ)
  /-- Raises where the lock is taken, by whomever. -/
  | lock (name : ν)
  /-- Raises where the lock is not held. -/
  | update (name : ν)
  | unlock (name : ν)
  /-- `if is_locked(name): unlock(name)`. -/
  | unlockIfLocked (name : ν)
  | raise
  | seq (first second : LockFlow ν κ)
  /-- A branch on data that the flow does not know. -/
  | either (first second : LockFlow ν κ)
  | tryExcept (body handler : LockFlow ν κ)
  | tryFinally (body cleanup : LockFlow ν κ)

namespace LockFlow

/-- `F.Exec taken held ok raised after`: with the locks in `taken` held by others and those in
`held` by itself, the program may return (`ok`) or raise, after the steps in `raised` have raised,
and holds the locks in `after` then. -/
def Exec (taken : Set ν) : LockFlow ν κ → Set ν → Bool → List κ → Set ν → Prop
  | skip, held, ok, raised, after => ok = true ∧ raised = [] ∧ after = held
  | step k, held, ok, raised, after =>
    after = held ∧ (ok = true ∧ raised = [] ∨ ok = false ∧ raised = [k])
  | lock n, held, ok, raised, after => raised = [] ∧
    (n ∉ held ∧ n ∉ taken ∧ ok = true ∧ after = held ∪ {n} ∨
      (n ∈ held ∨ n ∈ taken) ∧ ok = false ∧ after = held)
  | update n, held, ok, raised, after =>
    raised = [] ∧ after = held ∧ (n ∈ held ∧ ok = true ∨ n ∉ held ∧ ok = false)
  | unlock n, held, ok, raised, after => raised = [] ∧
    (n ∈ held ∧ ok = true ∧ after = held \ {n} ∨ n ∉ held ∧ ok = false ∧ after = held)
  | unlockIfLocked n, held, ok, raised, after => raised = [] ∧
    (n ∈ held ∧ ok = true ∧ after = held \ {n} ∨ n ∉ held ∧ n ∈ taken ∧ ok = false ∧ after = held ∨
      n ∉ held ∧ n ∉ taken ∧ ok = true ∧ after = held)
  | raise, held, ok, raised, after => ok = false ∧ raised = [] ∧ after = held
  | seq a b, held, ok, raised, after =>
    (∃ ks ls mid, Exec taken a held true ks mid ∧ Exec taken b mid ok ls after ∧
      raised = ks ++ ls) ∨ ok = false ∧ Exec taken a held false raised after
  | either a b, held, ok, raised, after =>
    Exec taken a held ok raised after ∨ Exec taken b held ok raised after
  | tryExcept a handler, held, ok, raised, after =>
    ok = true ∧ Exec taken a held true raised after ∨
      ∃ ks ls mid, Exec taken a held false ks mid ∧ Exec taken handler mid ok ls after ∧
        raised = ks ++ ls
  | tryFinally a cleanup, held, ok, raised, after =>
    ∃ r r' ks ls mid, Exec taken a held r ks mid ∧ Exec taken cleanup mid r' ls after ∧
      ok = (r && r') ∧ raised = ks ++ ls

variable {taken held after : Set ν} {ok : Bool} {raised : List κ} {k : κ} {n : ν}
  {F G : LockFlow ν κ}

@[simp] theorem exec_skip :
    (skip : LockFlow ν κ).Exec taken held ok raised after ↔
      ok = true ∧ raised = [] ∧ after = held := Iff.rfl

@[simp] theorem exec_raise :
    (raise : LockFlow ν κ).Exec taken held ok raised after ↔
      ok = false ∧ raised = [] ∧ after = held := Iff.rfl

/-- A lock that nobody holds is taken. -/
theorem exec_lock_of_free (hheld : n ∉ held) (htaken : n ∉ taken) :
    (lock n : LockFlow ν κ).Exec taken held ok raised after ↔
      ok = true ∧ raised = [] ∧ after = held ∪ {n} := by
  simp only [Exec]
  grind

theorem exec_lock_of_taken (h : n ∈ held ∨ n ∈ taken) :
    (lock n : LockFlow ν κ).Exec taken held ok raised after ↔
      ok = false ∧ raised = [] ∧ after = held := by
  have hno : ¬ (n ∉ held ∧ n ∉ taken) := fun hfree => h.elim hfree.1 hfree.2
  simp only [Exec]
  constructor
  · rintro ⟨hraised, ⟨hheld, htaken, -⟩ | ⟨-, hok, hafter⟩⟩
    · exact absurd ⟨hheld, htaken⟩ hno
    · exact ⟨hok, hraised, hafter⟩
  · rintro ⟨hok, hraised, hafter⟩
    exact ⟨hraised, .inr ⟨h, hok, hafter⟩⟩

theorem exec_update_of_mem (h : n ∈ held) :
    (update n : LockFlow ν κ).Exec taken held ok raised after ↔
      ok = true ∧ raised = [] ∧ after = held := by
  simp only [Exec]
  grind

theorem exec_unlock_of_mem (h : n ∈ held) :
    (unlock n : LockFlow ν κ).Exec taken held ok raised after ↔
      ok = true ∧ raised = [] ∧ after = held \ {n} := by
  simp only [Exec]
  grind

theorem exec_unlockIfLocked_of_mem (h : n ∈ held) :
    (unlockIfLocked n : LockFlow ν κ).Exec taken held ok raised after ↔
      ok = true ∧ raised = [] ∧ after = held \ {n} := by
  simp only [Exec]
  grind

/-- Returning or raising, it leaves the lock not held. -/
theorem exec_unlockIfLocked
    (h : (unlockIfLocked n : LockFlow ν κ).Exec taken held ok raised after) :
    raised = [] ∧ after = held \ {n} := by
  by_cases hn : n ∈ held
  · obtain ⟨-, hraised, hafter⟩ := (exec_unlockIfLocked_of_mem hn).mp h
    exact ⟨hraised, hafter⟩
  · rw [Set.sdiff_singleton_eq_self hn]
    obtain ⟨hraised, ⟨hmem, -⟩ | ⟨-, -, -, hafter⟩ | ⟨-, -, -, hafter⟩⟩ := h
    · exact absurd hmem hn
    · exact ⟨hraised, hafter⟩
    · exact ⟨hraised, hafter⟩

/-- The rest of a program follows a step, or the step has raised. -/
theorem exec_seq_step : (seq (step k) F).Exec taken held ok raised after ↔
    F.Exec taken held ok raised after ∨ ok = false ∧ raised = [k] ∧ after = held := by
  constructor
  · rintro (⟨ks, ls, mid, ⟨rfl, ⟨-, rfl⟩ | ⟨h, -⟩⟩, hF, rfl⟩ | ⟨hok, hafter, ⟨h, -⟩ | ⟨-, hk⟩⟩)
    · exact .inl hF
    · cases h
    · cases h
    · exact .inr ⟨hok, hk, hafter⟩
  · rintro (hF | ⟨hok, hk, hafter⟩)
    · exact .inl ⟨[], raised, held, ⟨rfl, .inl ⟨rfl, rfl⟩⟩, hF, rfl⟩
    · exact .inr ⟨hok, hafter, .inr ⟨rfl, hk⟩⟩

/-- A first part that can only return, and is known to leave `mid`. -/
theorem exec_seq_of_returns {mid : Set ν} (h : ∀ ok raised after,
      G.Exec taken held ok raised after ↔ ok = true ∧ raised = [] ∧ after = mid) :
    (seq G F).Exec taken held ok raised after ↔ F.Exec taken mid ok raised after := by
  constructor
  · rintro (⟨ks, ls, mid', hG, hF, rfl⟩ | ⟨-, hG⟩)
    · obtain ⟨-, rfl, rfl⟩ := (h _ _ _).mp hG
      exact hF
    · cases ((h _ _ _).mp hG).1
  · intro hF
    exact .inl ⟨[], raised, mid, (h _ _ _).mpr ⟨rfl, rfl, rfl⟩, hF, rfl⟩

/-- A first part that can only raise. -/
theorem exec_seq_of_raises (h : ∀ ok raised after,
      G.Exec taken held ok raised after → ok = false) :
    (seq G F).Exec taken held ok raised after ↔ G.Exec taken held ok raised after := by
  constructor
  · rintro (⟨ks, ls, mid, hG, -⟩ | ⟨rfl, hG⟩)
    · cases h _ _ _ hG
    · exact hG
  · intro hG
    obtain rfl := h _ _ _ hG
    exact .inr ⟨rfl, hG⟩

/-- `except: unlock(name); raise`, where the lock is held. -/
theorem exec_unlockAndRaise (h : n ∈ held) :
    (seq (unlock n) raise : LockFlow ν κ).Exec taken held ok raised after ↔
      ok = false ∧ raised = [] ∧ after = held \ {n} := by
  rw [exec_seq_of_returns fun _ _ _ => exec_unlock_of_mem h]
  rfl

/-- `if is_locked(name): unlock(name)` at the beginning of a handler. -/
theorem exec_releaseAndRaise
    (h : (seq (unlockIfLocked n) raise : LockFlow ν κ).Exec taken held ok raised after) :
    ok = false ∧ raised = [] ∧ after = held \ {n} := by
  obtain ⟨ks, ls, mid, hunlock, ⟨hok, rfl, rfl⟩, rfl⟩ | ⟨hok, hunlock⟩ := h
  · obtain ⟨rfl, hafter⟩ := exec_unlockIfLocked hunlock
    exact ⟨hok, rfl, hafter⟩
  · obtain ⟨hraised, hafter⟩ := exec_unlockIfLocked hunlock
    exact ⟨hok, hraised, hafter⟩

/-- `F` does not take or release a lock on any path. -/
def Leaves (taken held : Set ν) (F : LockFlow ν κ) : Prop :=
  ∀ ⦃ok raised after⦄, F.Exec taken held ok raised after → after = held

theorem leaves_step : (step k : LockFlow ν κ).Leaves taken held := fun _ _ _ h => h.1

theorem Leaves.seq (hF : F.Leaves taken held) (hG : G.Leaves taken held) :
    (seq F G).Leaves taken held := by
  rintro ok raised after (⟨ks, ls, mid, h, k, rfl⟩ | ⟨-, h⟩)
  · obtain rfl := hF h
    exact hG k
  · exact hF h

/-- `try: F except: unlock(name); raise`, where the lock is held and `F` leaves it alone. -/
theorem exec_guarded (hF : F.Leaves taken held) (h : n ∈ held) :
    (tryExcept F (seq (unlock n) raise)).Exec taken held ok raised after ↔
      F.Exec taken held ok raised held ∧ after = if ok then held else held \ {n} := by
  constructor
  · rintro (⟨rfl, hbody⟩ | ⟨ks, ls, mid, hbody, hhandler, rfl⟩)
    · obtain rfl := hF hbody
      exact ⟨hbody, rfl⟩
    · obtain rfl := hF hbody
      obtain ⟨rfl, rfl, rfl⟩ := (exec_unlockAndRaise h).mp hhandler
      rw [List.append_nil]
      exact ⟨hbody, rfl⟩
  · rintro ⟨hbody, rfl⟩
    cases ok with
    | true => exact .inl ⟨rfl, hbody⟩
    | false =>
      exact .inr ⟨raised, [], held, hbody, (exec_unlockAndRaise h).mpr ⟨rfl, rfl, rfl⟩,
        (List.append_nil _).symm⟩

/-- A program that starts with taking a lock. -/
theorem exec_seq_lock : (seq (lock n) F).Exec taken held ok raised after ↔
    (n ∈ held ∨ n ∈ taken) ∧ ok = false ∧ raised = [] ∧ after = held ∨
      n ∉ held ∧ n ∉ taken ∧ F.Exec taken (held ∪ {n}) ok raised after := by
  by_cases hfree : n ∉ held ∧ n ∉ taken
  · rw [exec_seq_of_returns fun _ _ _ => exec_lock_of_free hfree.1 hfree.2]
    simp [hfree.1, hfree.2]
  · have htaken : n ∈ held ∨ n ∈ taken := by tauto
    rw [exec_seq_of_raises fun _ _ _ h => ((exec_lock_of_taken htaken).mp h).1,
      exec_lock_of_taken htaken]
    constructor
    · exact fun h => .inl ⟨htaken, h⟩
    · rintro (⟨-, h⟩ | ⟨hheld, hno, -⟩)
      · exact h
      · exact absurd ⟨hheld, hno⟩ hfree

theorem sdiff_union_of_notMem (h : n ∉ held) : (held ∪ {n}) \ {n} = held := by
  rw [Set.union_sdiff_right, Set.sdiff_singleton_eq_self h]

theorem union_ne_self (h : n ∉ held) : held ∪ {n} ≠ held := by
  intro heq
  exact h (heq ▸ Set.mem_union_right held rfl)

end LockFlow
end Lib

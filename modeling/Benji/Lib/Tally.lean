import Mathlib.Algebra.BigOperators.Group.Finset.Piecewise
import Mathlib.Algebra.Order.BigOperators.Group.List
import Mathlib.Algebra.Group.Action.Defs
import Mathlib.Algebra.GroupWithZero.Nat
import Mathlib.Data.List.Dedup

/-! Sums over the groups of a list, and counts of what satisfies one condition or two. -/
namespace Lib

section
variable {α κ : Type}

/-- Each element of a list counted as often as it occurs. -/
theorem sum_dedup_mul_count [DecidableEq α] [BEq α] [LawfulBEq α] (l : List α) (f : α → ℕ) :
    (l.dedup.map fun a => f a * l.count a).sum = (l.map f).sum := by
  have hset : l.dedup.toFinset = l.toFinset := by
    ext a
    rw [List.mem_toFinset, List.mem_toFinset, List.mem_dedup]
  calc (l.dedup.map fun a => f a * l.count a).sum
      = l.dedup.toFinset.sum fun a => f a * l.count a :=
        (List.sum_toFinset _ (List.nodup_dedup l)).symm
    _ = (l.map f).sum := by
        rw [hset, Finset.sum_list_map_count]
        apply Finset.sum_congr rfl
        intro a _
        rw [smul_eq_mul, Nat.mul_comm]
        unfold List.count
        congr 1
        apply List.countP_congr
        intro b _
        constructor <;> intro h <;> simpa using h

/-- The same for the elements with a property. -/
theorem sum_filter_dedup_mul_count [DecidableEq α] [BEq α] [LawfulBEq α] (l : List α)
    (p : α → Bool) (f : α → ℕ) :
    ((l.dedup.filter p).map fun a => f a * l.count a).sum = ((l.filter p).map f).sum := by
  have hperm : (l.dedup.filter p).Perm (l.filter p).dedup := by
    rw [List.perm_ext_iff_of_nodup ((List.nodup_dedup l).filter p) (List.nodup_dedup _)]
    intro a
    rw [List.mem_filter, List.mem_dedup, List.mem_dedup, List.mem_filter]
  have hcount : (l.dedup.filter p).map (fun a => f a * l.count a) =
      (l.dedup.filter p).map fun a => f a * (l.filter p).count a := by
    apply List.map_congr_left
    intro a ha
    rw [List.count_filter (List.mem_filter.mp ha).2]
  rw [hcount, (hperm.map _).sum_eq, sum_dedup_mul_count]

/-- A sum is the sum of the sums over the groups. -/
theorem sum_by_key [DecidableEq κ] (key : α → κ) (f : α → ℕ) {ks : List κ} (hks : ks.Nodup)
    {l : List α} (hl : ∀ a ∈ l, key a ∈ ks) :
    (ks.map fun k => ((l.filter fun a => key a = k).map f).sum).sum = (l.map f).sum := by
  induction l with
  | nil => simp
  | cons a l ih =>
    obtain ⟨ha, hl⟩ := List.forall_mem_cons.mp hl
    have hsplit : ∀ k, (((a :: l).filter fun b => key b = k).map f).sum =
        (if key a = k then f a else 0) + ((l.filter fun b => key b = k).map f).sum := by
      intro k
      rw [List.filter_cons]
      by_cases hk : key a = k <;> simp [hk]
    have hone : (ks.map fun k => if key a = k then f a else 0).sum = f a := by
      rw [← List.sum_toFinset _ hks, Finset.sum_ite_eq, if_pos (List.mem_toFinset.mpr ha)]
    simp only [hsplit]
    rw [List.sum_map_add, hone, ih hl, List.map_cons, List.sum_cons]

/-- Asking for more leaves the count alone exactly when everything counted has it. -/
theorem countP_and_eq_iff (p q : α → Bool) (l : List α) :
    l.countP p = l.countP (fun a => p a && q a) ↔ ∀ a ∈ l, p a = true → q a = true := by
  induction l with
  | nil => simp
  | cons a l ih =>
    have hle : l.countP (fun a => p a && q a) ≤ l.countP p := by
      apply List.countP_mono_left
      intro a _ h
      exact (Bool.and_eq_true_iff.mp h).1
    rw [List.forall_mem_cons, ← ih, List.countP_cons, List.countP_cons]
    cases hp : p a with
    | false => simp
    | true =>
      cases hq : q a with
      | true => simp
      | false =>
        simp only [Bool.and_false, if_true, Bool.false_eq_true, if_false]
        constructor
        · intro h
          omega
        · rintro ⟨h, -⟩
          cases h trivial

end

end Lib

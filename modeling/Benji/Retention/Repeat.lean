import Benji.Retention.Partition

/-! Filtering the versions that a filter left over a second time. -/
namespace Benji
open Lib

namespace RetentionFilter
variable {α : Type} [DecidableEq α] {F : RetentionFilter} {date : α → ℤ} {versions : List α}

/-- The versions that are not dismissed. -/
def survivors (F : RetentionFilter) (date : α → ℤ) (versions : List α) : List α :=
  versions.filter fun v => v ∉ F.filter date versions

theorem sorted_survivors : sorted date (F.survivors date versions) =
    (sorted date versions).filter fun v => v ∉ F.filter date versions :=
  (filter_insertionSort _ _).symm

/-- What is not one of the latest survivors was not one of the latest before. -/
theorem rest_survivors_sublist : (F.rest date (F.survivors date versions)).Sublist
    ((F.rest date versions).filter fun v => v ∉ F.filter date versions) := by
  have hlatest : ((F.latest date versions).filter
      fun v => v ∉ F.filter date versions).length ≤ F.latestCount :=
    (List.length_filter_le _ _).trans (List.length_take_le _ _)
  have hsplit : sorted date (F.survivors date versions) =
      ((F.latest date versions).filter fun v => v ∉ F.filter date versions) ++
        (F.rest date versions).filter fun v => v ∉ F.filter date versions := by
    rw [sorted_survivors, ← latest_append_rest (F := F), List.filter_append]
  have hrest : F.rest date (F.survivors date versions) =
      (sorted date (F.survivors date versions)).drop F.latestCount := rfl
  rw [hrest, hsplit, List.drop_append, List.drop_eq_nil_of_le hlatest, List.nil_append]
  exact List.drop_sublist _ _

/-- Of a bucket at most the oldest version survives. -/
theorem length_inPlace_survivors {c : Category} {n : ℤ} :
    (F.inPlace date (.bucket c n)
      ((F.rest date versions).filter fun v => v ∉ F.filter date versions)).length ≤ 1 := by
  unfold inPlace
  rw [List.filter_comm]
  by_cases hnil : F.inPlace date (.bucket c n) (F.rest date versions) = []
  · have hnil : (F.rest date versions).filter (fun v => F.place (date v) = .bucket c n) = [] :=
      hnil
    rw [hnil]
    exact Nat.zero_le 1
  · obtain ⟨o, hsplit, -⟩ := exists_oldest pairwise_inPlace hnil
    have hdropped : ((F.inPlace date (.bucket c n) (F.rest date versions)).dropLast).filter
        (fun v => v ∉ F.filter date versions) = [] := by
      refine List.filter_eq_nil_iff.mpr fun v hv => ?_
      have hplace : F.place (date v) = .bucket c n :=
        place_of_mem_inPlace (List.dropLast_subset _ hv)
      have hmem : v ∈ F.filter date versions := by
        rw [mem_filter_iff, hplace]
        exact hv
      simpa using hmem
    have hsplit : (F.rest date versions).filter (fun v => F.place (date v) = .bucket c n) =
        (F.inPlace date (.bucket c n) (F.rest date versions)).dropLast ++ [o] := hsplit
    rw [hsplit, List.filter_append, hdropped, List.nil_append]
    exact List.length_filter_le _ _

/-- A second application dismisses nothing. -/
theorem filter_survivors (F : RetentionFilter) (date : α → ℤ) (versions : List α) :
    F.filter date (F.survivors date versions) = [] := by
  refine List.eq_nil_iff_forall_not_mem.mpr fun v hv => ?_
  rw [mem_filter_iff] at hv
  have hrest : (F.rest date (F.survivors date versions)).Sublist
      ((F.rest date versions).filter fun v => v ∉ F.filter date versions) := rest_survivors_sublist
  have hsub := hrest.filter fun u =>
    F.place (date u) = F.place (date v)
  cases hp : F.place (date v) with
  | future =>
    rw [hp] at hv
    cases hv
  | tooOld =>
    rw [hp] at hv hsub
    have hmem := hsub.subset hv
    rw [List.mem_filter, List.mem_filter] at hmem
    have hin : v ∈ F.filter date versions := by
      rw [mem_filter_iff, hp]
      exact List.mem_filter.mpr ⟨hmem.1.1, decide_eq_true hp⟩
    exact absurd hin (by simpa using hmem.1.2)
  | bucket c n =>
    rw [hp] at hv hsub
    have hlength := hsub.length_le.trans length_inPlace_survivors
    have hdropped : (F.inPlace date (.bucket c n)
        (F.rest date (F.survivors date versions))).dropLast = [] := by
      refine List.eq_nil_of_length_eq_zero ?_
      rw [List.length_dropLast]
      unfold inPlace
      omega
    have hv : v ∈ (F.inPlace date (.bucket c n)
        (F.rest date (F.survivors date versions))).dropLast := hv
    rw [hdropped] at hv
    cases hv

end RetentionFilter

end Benji

import Benji.Retention.Units
import Mathlib.Data.List.Induction

/-! A retention filter puts each version in one place and dismisses, place by place, all versions
that are too old and all but the oldest of a bucket. -/
namespace Benji
open Lib

namespace RetentionFilter
variable {α : Type} {F : RetentionFilter} {date : α → ℤ} {versions : List α} {l : List α}

/-- The versions in one place, from youngest to oldest. -/
def inPlace (F : RetentionFilter) (date : α → ℤ) (p : Place) (l : List α) : List α :=
  l.filter fun v => F.place (date v) = p

/-- What is dismissed of the versions in one place. -/
def dismissedOf : Place → List α → List α
  | .future, _ => []
  | .bucket _ _, l => l.dropLast
  | .tooOld, l => l

theorem inPlace_append_singleton {p : Place} {v : α} :
    F.inPlace date p (l ++ [v]) =
      if F.place (date v) = p then F.inPlace date p l ++ [v] else F.inPlace date p l := by
  unfold inPlace
  rw [List.filter_append, List.filter_singleton]
  by_cases h : F.place (date v) = p
  · rw [decide_eq_true h, if_pos h]
    rfl
  · rw [decide_eq_false h, if_neg h]
    exact List.append_nil _

theorem sortIn_spec (l : List α) :
    (l.foldl (F.sortIn date) {}).dismissedVersions = F.inPlace date .tooOld l ∧
      ∀ c, Groups ((l.foldl (F.sortIn date) {}).versionsByCategory c) fun n =>
        F.inPlace date (.bucket c n) l := by
  induction l using List.reverseRecOn with
  | nil => exact ⟨rfl, fun _ => groups_nil⟩
  | append_singleton l v ih =>
    obtain ⟨hdismissed, hgroups⟩ := ih
    rw [List.foldl_append, List.foldl_cons, List.foldl_nil]
    generalize l.foldl (F.sortIn date) {} = s at hdismissed hgroups ⊢
    unfold sortIn
    cases hp : F.place (date v) with
    | future =>
      constructor
      · rw [inPlace_append_singleton, hp, if_neg (by simp)]
        exact hdismissed
      · intro c
        simp only [inPlace_append_singleton, hp, reduceCtorEq, if_false]
        exact hgroups c
    | tooOld =>
      constructor
      · rw [inPlace_append_singleton, hp, if_pos rfl]
        exact congrArg (· ++ [v]) hdismissed
      · intro c
        simp only [inPlace_append_singleton, hp, reduceCtorEq, if_false]
        exact hgroups c
    | bucket c₀ n₀ =>
      constructor
      · rw [inPlace_append_singleton, hp, if_neg (by simp)]
        exact hdismissed
      · intro c
        dsimp only
        by_cases hc : c = c₀
        · subst hc
          rw [Function.update_self]
          have happend := (hgroups c).appendAt (k := n₀) (a := v)
          refine ⟨happend.nodup, fun n as => ?_⟩
          rw [happend.mem_iff, inPlace_append_singleton, hp]
          by_cases hn : n = n₀
          · subst hn
            rw [Function.update_self, if_pos rfl]
          · have hne : Place.bucket c n₀ ≠ .bucket c n := by
              intro heq
              cases heq
              exact hn rfl
            rw [Function.update_of_ne hn, if_neg hne]
        · rw [Function.update_of_ne hc]
          refine ⟨(hgroups c).nodup, fun n as => ?_⟩
          have hne : Place.bucket c₀ n₀ ≠ .bucket c n := by
            intro heq
            cases heq
            exact hc rfl
          rw [(hgroups c).mem_iff, inPlace_append_singleton, hp, if_neg hne]

theorem mem_categories_of_place {d n : ℤ} {c : Category} (h : F.place d = .bucket c n) :
    c ∈ F.categories := by
  obtain ⟨-, -, -, before, after, heq, -⟩ := place_eq_bucket.mp h
  rw [heq]
  exact List.mem_append_right _ List.mem_cons_self

theorem place_of_mem_inPlace {p : Place} {v : α} (h : v ∈ F.inPlace date p l) :
    F.place (date v) = p := of_decide_eq_true (List.mem_filter.mp h).2

theorem inPlace_eq_self {p : Place} (h : ∀ v ∈ l, F.place (date v) = p) :
    F.inPlace date p l = l :=
  List.filter_eq_self.mpr fun v hv => decide_eq_true (h v hv)

theorem inPlace_eq_nil {p : Place} (h : ∀ v ∈ l, F.place (date v) ≠ p) :
    F.inPlace date p l = [] :=
  List.filter_eq_nil_iff.mpr fun v hv => by simpa using h v hv

/-- In a list without repeated keys, a filter of the concatenation finds one entry. -/
theorem flatMap_eq_of_nodup {β γ : Type} {l : List β} {f : β → List γ} {b : β} (hn : l.Nodup)
    (hb : b ∈ l) (hf : ∀ c ∈ l, c ≠ b → f c = []) : l.flatMap f = f b := by
  induction l with
  | nil => cases hb
  | cons c l ih =>
    obtain ⟨hc, hl⟩ := List.nodup_cons.mp hn
    rw [List.flatMap_cons]
    cases List.mem_cons.mp hb with
    | inl heq =>
      subst heq
      have hrest : l.flatMap f = [] := List.flatMap_eq_nil_iff.mpr fun d hd =>
        hf d (List.mem_cons_of_mem _ hd) fun heq => hc (heq ▸ hd)
      rw [hrest, List.append_nil]
    | inr hb =>
      have hne : c ≠ b := fun heq => hc (heq ▸ hb)
      rw [hf c List.mem_cons_self hne, List.nil_append]
      exact ih hl hb fun d hd => hf d (List.mem_cons_of_mem _ hd)

/-- The dismissed versions of each place. -/
theorem inPlace_filter (p : Place) :
    F.inPlace date p (F.filter date versions) =
      dismissedOf p (F.inPlace date p (F.rest date versions)) := by
  obtain ⟨hdismissed, hgroups⟩ := @sortIn_spec _ F date (F.rest date versions)
  have hentry {c : Category} {q : ℤ × List α}
      (hq : q ∈ (F.sortVersions date versions).versionsByCategory c) {v : α}
      (hv : v ∈ q.2.dropLast) : F.place (date v) = .bucket c q.1 := by
    have hlist := ((hgroups c).mem_iff q.1 q.2).mp hq
    rw [hlist.1] at hv
    exact place_of_mem_inPlace (List.dropLast_subset _ hv)
  have hsplit : F.inPlace date p (F.filter date versions) =
      F.inPlace date p (F.sortVersions date versions).dismissedVersions ++
        F.categories.flatMap fun c =>
          ((F.sortVersions date versions).versionsByCategory c).flatMap fun q =>
            F.inPlace date p q.2.dropLast := by
    unfold filter filterVersions inPlace
    rw [List.filter_append, List.filter_flatMap]
    simp only [List.filter_flatMap]
  have hold : (F.sortVersions date versions).dismissedVersions =
      F.inPlace date .tooOld (F.rest date versions) := hdismissed
  rw [hsplit, hold]
  cases p with
  | future =>
    rw [inPlace_eq_nil fun v hv => by rw [place_of_mem_inPlace hv]; simp, List.nil_append]
    refine List.flatMap_eq_nil_iff.mpr fun c _ => List.flatMap_eq_nil_iff.mpr fun q hq => ?_
    exact inPlace_eq_nil fun v hv => by rw [hentry hq hv]; simp
  | tooOld =>
    rw [inPlace_eq_self fun v hv => place_of_mem_inPlace hv]
    have hnone : (F.categories.flatMap fun c =>
        ((F.sortVersions date versions).versionsByCategory c).flatMap fun q =>
          F.inPlace date .tooOld q.2.dropLast) = [] := by
      refine List.flatMap_eq_nil_iff.mpr fun c _ => List.flatMap_eq_nil_iff.mpr fun q hq => ?_
      exact inPlace_eq_nil fun v hv => by rw [hentry hq hv]; simp
    rw [hnone, List.append_nil]
    rfl
  | bucket c n =>
    rw [inPlace_eq_nil fun v hv => by rw [place_of_mem_inPlace hv]; simp, List.nil_append]
    have hother {c' : Category} {q : ℤ × List α}
        (hq : q ∈ (F.sortVersions date versions).versionsByCategory c')
        (hne : Place.bucket c' q.1 ≠ .bucket c n) :
        F.inPlace date (.bucket c n) q.2.dropLast = [] :=
      inPlace_eq_nil fun v hv => by rw [hentry hq hv]; exact hne
    by_cases hnil : F.inPlace date (.bucket c n) (F.rest date versions) = []
    · rw [hnil]
      refine List.flatMap_eq_nil_iff.mpr fun c' _ => List.flatMap_eq_nil_iff.mpr fun q hq => ?_
      refine hother hq fun heq => ?_
      cases heq
      exact (((hgroups c).mem_iff q.1 q.2).mp hq).2 hnil
    · obtain ⟨v, hv⟩ := List.exists_mem_of_ne_nil _ hnil
      have hmem := mem_categories_of_place (place_of_mem_inPlace hv)
      rw [flatMap_eq_of_nodup nodup_categories hmem]
      · have hin : (n, F.inPlace date (.bucket c n) (F.rest date versions)) ∈
            (F.sortVersions date versions).versionsByCategory c :=
          ((hgroups c).mem_iff n _).mpr ⟨rfl, hnil⟩
        have hnodup : ((F.sortVersions date versions).versionsByCategory c).Nodup :=
          List.Nodup.of_map _ (hgroups c).nodup
        rw [flatMap_eq_of_nodup hnodup hin]
        · exact inPlace_eq_self fun v hv => hentry hin hv
        · intro q hq hne
          refine hother hq fun heq => hne ?_
          cases heq
          exact Prod.ext rfl (((hgroups c).mem_iff q.1 q.2).mp hq).1
      · intro c' _ hne
        refine List.flatMap_eq_nil_iff.mpr fun q hq => hother hq fun heq => hne ?_
        cases heq
        rfl

theorem dismissedOf_sublist (p : Place) (l : List α) : (dismissedOf p l).Sublist l := by
  cases p with
  | future => exact List.nil_sublist l
  | bucket c n => exact List.dropLast_sublist l
  | tooOld => exact List.Sublist.refl l

theorem mem_filter_iff {v : α} : v ∈ F.filter date versions ↔
    v ∈ dismissedOf (F.place (date v))
      (F.inPlace date (F.place (date v)) (F.rest date versions)) := by
  rw [← inPlace_filter]
  unfold inPlace
  rw [List.mem_filter]
  exact (and_iff_left (decide_eq_true rfl)).symm

theorem filter_subset : F.filter date versions ⊆ F.rest date versions := by
  intro v hv
  exact List.mem_of_mem_filter ((dismissedOf_sublist _ _).subset (mem_filter_iff.mp hv))

/-- Nothing is dismissed more often than it is there. -/
theorem filter_subperm : (F.filter date versions).Subperm (F.rest date versions) := by
  classical
  refine List.subperm_ext_iff.mpr fun v _ => ?_
  have hcount (l : List α) : l.count v = (F.inPlace date (F.place (date v)) l).count v := by
    unfold inPlace
    exact (List.count_filter (by simp)).symm
  rw [hcount (F.filter date versions), hcount (F.rest date versions), inPlace_filter]
  exact (dismissedOf_sublist _ _).count_le v

instance : Std.Total fun a b : α => date b ≤ date a where
  total a b := Int.le_total (date b) (date a)

instance : IsTrans α fun a b => date b ≤ date a where
  trans _ _ _ hab hbc := Int.le_trans hbc hab

theorem pairwise_sorted : (sorted date versions).Pairwise fun a b => date b ≤ date a :=
  List.pairwise_insertionSort _ _

theorem perm_sorted : (sorted date versions).Perm versions := List.perm_insertionSort _ _

theorem latest_append_rest :
    F.latest date versions ++ F.rest date versions = sorted date versions :=
  List.take_append_drop _ _

theorem youngest_latest {a b : α} (ha : a ∈ F.latest date versions)
    (hb : b ∈ F.rest date versions) : date b ≤ date a := by
  have hsorted : (sorted date versions).Pairwise fun a b => date b ≤ date a := pairwise_sorted
  rw [← latest_append_rest (F := F), List.pairwise_append] at hsorted
  exact hsorted.2.2 a ha b hb

theorem pairwise_inPlace {p : Place} :
    (F.inPlace date p (F.rest date versions)).Pairwise fun a b => date b ≤ date a :=
  (pairwise_sorted.sublist (List.drop_sublist _ _)).filter _

/-- A bucket is its dismissed versions and the oldest one. -/
theorem exists_oldest {l : List α} (hl : l.Pairwise fun a b => date b ≤ date a) (hne : l ≠ []) :
    ∃ o, l = l.dropLast ++ [o] ∧ ∀ v ∈ l, date o ≤ date v := by
  have hsplit := List.dropLast_append_getLast hne
  refine ⟨l.getLast hne, hsplit.symm, fun v hv => ?_⟩
  rw [← hsplit] at hl hv
  rw [List.pairwise_append] at hl
  rw [List.mem_append, List.mem_singleton] at hv
  cases hv with
  | inl hv => exact hl.2.2 v hv _ (List.mem_singleton.mpr rfl)
  | inr heq => rw [heq]

/-- With distinct dates there is one way to sort. -/
theorem sorted_eq_of_perm {versions' : List α} (h : versions'.Perm versions)
    (hn : (versions.map date).Nodup) : sorted date versions' = sorted date versions := by
  refine List.Perm.eq_of_pairwise ?_ pairwise_sorted pairwise_sorted
    (perm_sorted.trans (h.trans perm_sorted.symm))
  intro a b ha hb hab hba
  have ha := h.subset (perm_sorted.subset ha)
  have hb := perm_sorted.subset hb
  exact List.inj_on_of_nodup_map hn ha hb (Int.le_antisymm hba hab)

/-- Where a filter puts the versions and what it makes of them. -/
structure Partitioned (F : RetentionFilter) (date : α → ℤ) (versions : List α) : Prop where
  perm : (F.latest date versions ++ F.rest date versions).Perm versions
  latest : (F.latest date versions).length = min ((F.rules .latest).getD 0) versions.length
  youngest : ∀ a ∈ F.latest date versions, ∀ b ∈ F.rest date versions, date b ≤ date a
  future : ∀ d, F.place d = .future ↔ F.referenceTime < d
  tooOld : ∀ d, F.place d = .tooOld ↔ d ≤ F.referenceTime ∧ ∀ c, ¬ F.Fits c d
  bucket : ∀ d c n, F.place d = .bucket c n ↔
    d ≤ F.referenceTime ∧ n = F.timecount c d ∧ F.Fits c d ∧
      ∃ before after, Category.validCategories = before ++ c :: after ∧
        ∀ c' ∈ before, ¬ F.Fits c' d
  dismissed : ∀ p, F.inPlace date p (F.filter date versions) =
    dismissedOf p (F.inPlace date p (F.rest date versions))
  oldest : ∀ c n, F.inPlace date (.bucket c n) (F.rest date versions) ≠ [] →
    ∃ o, F.inPlace date (.bucket c n) (F.rest date versions) =
        (F.inPlace date (.bucket c n) (F.rest date versions)).dropLast ++ [o] ∧
      ∀ v ∈ F.inPlace date (.bucket c n) (F.rest date versions), date o ≤ date v
  once : (F.filter date versions).Subperm (F.rest date versions)
  order : ∀ versions' : List α, versions'.Perm versions → (versions.map date).Nodup →
    F.filter date versions' = F.filter date versions

theorem filter_partitions (F : RetentionFilter) (date : α → ℤ) (versions : List α) :
    Partitioned F date versions where
  perm := by
    rw [latest_append_rest]
    exact perm_sorted
  latest := by
    unfold RetentionFilter.latest
    rw [List.length_take, perm_sorted.length_eq, latestCount]
  youngest _ ha _ hb := youngest_latest ha hb
  future _ := place_eq_future
  tooOld _ := place_eq_tooOld_iff
  bucket _ _ _ := place_eq_bucket_iff
  dismissed p := inPlace_filter p
  oldest _ _ hne := exists_oldest pairwise_inPlace hne
  once := filter_subperm
  order versions' h hn := by
    unfold filter filterVersions sortVersions rest
    rw [sorted_eq_of_perm h hn]

end RetentionFilter

end Benji

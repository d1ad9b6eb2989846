import Benji.Retention.Repeat

/-! Filtering the versions that a filter left over at a later time. -/
namespace Benji
open Lib

namespace RetentionFilter
variable {α : Type} {F G : RetentionFilter} {date : α → ℤ} {versions : List α} {offset : ℤ}

/-- A unit of the first category lies in one unit of the second. -/
def Nests (c d : Category) : Prop :=
  ∀ x y, Timedelta.unit x c = Timedelta.unit y c → Timedelta.unit x d = Timedelta.unit y d

/-- The categories whose units nest; weeks do not nest in months. -/
def chains : List (List Category) := [[.hours, .days, .weeks], [.hours, .days, .months, .years]]

theorem pairwise_of_mem_chains {chain : List Category} (h : chain ∈ chains) :
    chain.Pairwise Nests := by
  have hhours : Nests .hours .days := fun _ _ => Timedelta.unit_days_of_hours
  have hdays : Nests .days .weeks := fun _ _ => Timedelta.unit_weeks_of_days
  have hdays' : Nests .days .months := fun _ _ => Timedelta.unit_months_of_days
  have hmonths : Nests .months .years := fun _ _ => Timedelta.unit_years_of_months
  have htrans {a b c : Category} (hab : Nests a b) (hbc : Nests b c) : Nests a c :=
    fun x y heq => hbc x y (hab x y heq)
  unfold chains at h
  rw [List.mem_pair] at h
  cases h with
  | inl h =>
    rw [h]
    simp [hhours, hdays, htrans hhours hdays]
  | inr h =>
    have hyears := htrans hdays' hmonths
    rw [h]
    simp [hhours, hdays', hmonths, hyears, htrans hhours hdays', htrans hhours hyears]

theorem pairwise_nests {chain : List Category} (h : chain ∈ chains)
    (hsub : F.categories ⊆ chain) : F.categories.Pairwise Nests := by
  have horder : Category.validCategories.filter (· ∈ chain) = chain := by
    unfold chains at h
    rw [List.mem_pair] at h
    cases h with
    | inl h =>
      rw [h]
      decide
    | inr h =>
      rw [h]
      decide
  have hself : F.categories.filter (· ∈ chain) = F.categories :=
    List.filter_eq_self.mpr fun c hc => decide_eq_true (hsub hc)
  have hsublist : F.categories.Sublist chain := by
    rw [← hself]
    unfold categories
    rw [List.filter_comm, horder]
    exact List.filter_sublist
  exact (pairwise_of_mem_chains h).sublist hsublist

theorem mem_dropLast {l : List α} (h : l.Pairwise fun a b => date b < date a) {v : α} :
    v ∈ l.dropLast ↔ v ∈ l ∧ ∃ u ∈ l, date u < date v := by
  induction l using List.reverseRecOn with
  | nil => simp
  | append_singleton l o _ =>
    obtain ⟨-, -, hlast⟩ := List.pairwise_append.mp h
    have hlast (u : α) (hu : u ∈ l) : date o < date u :=
      hlast u hu o (List.mem_singleton.mpr rfl)
    rw [List.dropLast_concat]
    constructor
    · intro hv
      exact ⟨List.mem_append_left _ hv, o, List.mem_append_right _ (List.mem_singleton.mpr rfl),
        hlast v hv⟩
    · rintro ⟨hv, u, hu, hlt⟩
      rw [List.mem_append, List.mem_singleton] at hv hu
      cases hv with
      | inl hv => exact hv
      | inr hv =>
        subst hv
        cases hu with
        | inl hu => exact absurd (hlast u hu) (by omega)
        | inr hu => exact absurd hlt (by rw [hu]; omega)

theorem pairwise_lt_sorted (hdates : (versions.map date).Nodup) :
    (sorted date versions).Pairwise fun a b => date b < date a := by
  have hne : (sorted date versions).Pairwise fun a b => date a ≠ date b :=
    List.pairwise_map.mp ((perm_sorted.map date).nodup_iff.mpr hdates)
  refine (pairwise_sorted.and hne).imp fun hab => ?_
  omega

/-- With distinct dates a version is dismissed for its own date or for an older version. -/
theorem mem_filter_of_nodup (hdates : (versions.map date).Nodup) {v : α} :
    v ∈ F.filter date versions ↔ v ∈ F.rest date versions ∧ (F.place (date v) = .tooOld ∨
      ∃ c n, F.place (date v) = .bucket c n ∧
        ∃ u ∈ F.rest date versions, F.place (date u) = .bucket c n ∧ date u < date v) := by
  rw [mem_filter_iff]
  have hmem (u : α) : u ∈ F.inPlace date (F.place (date v)) (F.rest date versions) ↔
      u ∈ F.rest date versions ∧ F.place (date u) = F.place (date v) := by
    unfold inPlace
    rw [List.mem_filter, decide_eq_true_eq]
  cases hp : F.place (date v) with
  | future => simp [dismissedOf]
  | tooOld =>
    rw [hp] at hmem
    unfold dismissedOf
    dsimp only
    rw [hmem]
    simp [hp]
  | bucket c n =>
    rw [hp] at hmem
    have hpairwise : (F.inPlace date (.bucket c n) (F.rest date versions)).Pairwise
        fun a b => date b < date a :=
      ((pairwise_lt_sorted hdates).sublist (List.drop_sublist _ _)).filter _
    unfold dismissedOf
    dsimp only
    rw [mem_dropLast hpairwise, hmem, and_iff_left hp]
    constructor
    · rintro ⟨hv, u, hu, hlt⟩
      rw [hmem] at hu
      exact ⟨hv, .inr ⟨c, n, rfl, u, hu.1, hu.2, hlt⟩⟩
    · rintro ⟨hv, htoo | ⟨c', n', heq, u, hu, hpu, hlt⟩⟩
      · cases htoo
      · cases heq
        exact ⟨hv, u, (hmem u).mpr ⟨hu, hpu⟩, hlt⟩

/-- The same rules in the same time zone of a fixed offset, not at an earlier time. -/
structure Later (F G : RetentionFilter) (offset : ℤ) : Prop where
  rules : G.rules = F.rules
  utcOffset : F.utcOffset = fun _ => offset
  utcOffset' : G.utcOffset = fun _ => offset
  referenceTime : F.referenceTime ≤ G.referenceTime

theorem Later.categories (h : Later F G offset) : G.categories = F.categories := by
  unfold RetentionFilter.categories
  rw [h.rules]

theorem Later.limit (h : Later F G offset) (c : Category) : G.limit c = F.limit c := by
  unfold RetentionFilter.limit
  rw [h.rules]

theorem Later.rest (h : Later F G offset) : G.rest date versions = F.rest date versions := by
  unfold RetentionFilter.rest latestCount
  rw [h.rules]

theorem Later.timecount_le (h : Later F G offset) (c : Category) (d : ℤ) :
    F.timecount c d ≤ G.timecount c d := by
  have hunit := Timedelta.unit_mono c (show F.referenceTime + offset ≤ G.referenceTime + offset by
    have := h.referenceTime
    omega)
  unfold timecount
  rw [h.utcOffset, h.utcOffset']
  dsimp only
  omega

theorem Later.timecount_anti (h : Later F G offset) (c : Category) {d e : ℤ} (hde : d ≤ e) :
    G.timecount c e ≤ G.timecount c d := by
  have hunit := Timedelta.unit_mono c (show d + offset ≤ e + offset by omega)
  unfold timecount
  rw [h.utcOffset']
  dsimp only
  omega

theorem Later.tooOld (h : Later F G offset) {d : ℤ} (hd : F.place d = .tooOld) :
    G.place d = .tooOld := by
  rw [place_eq_tooOld] at hd ⊢
  constructor
  · exact hd.1.trans h.referenceTime
  · intro c hc
    rw [h.categories] at hc
    have hlt := hd.2 c hc
    have hle := h.timecount_le c d
    rw [h.limit]
    omega

/-- Who was in the bucket of a younger version is in its bucket later on. -/
theorem Later.bucket (h : Later F G offset) (hnests : F.categories.Pairwise Nests) {d e n m : ℤ}
    {c k : Category} (hd : F.place d = .bucket c n) (he : F.place e = .bucket c n) (hlt : d < e)
    (hlater : G.place e = .bucket k m) : G.place d = .bucket k m := by
  obtain ⟨hdref, hdn, -, -⟩ := place_eq_bucket.mp hd
  obtain ⟨-, hen, -, before, after, hsplit, hbefore⟩ := place_eq_bucket.mp he
  obtain ⟨heref, hem, hle, before', after', hsplit', hbefore'⟩ := place_eq_bucket.mp hlater
  -- the categories before `c` are as exceeded later on as they were
  have hafter : k ∈ c :: after := by
    have hk : k ∈ before ++ c :: after := by
      rw [← hsplit, ← h.categories, hsplit']
      exact List.mem_append_right _ List.mem_cons_self
    cases List.mem_append.mp hk with
    | inl hk =>
      have hexceeds := hbefore k hk
      have hle' := h.timecount_le k e
      rw [h.limit] at hle
      omega
    | inr hk => exact hk
  have hunit : Timedelta.unit (d + offset) c = Timedelta.unit (e + offset) c := by
    rw [hdn] at hen
    unfold timecount at hen
    rw [h.utcOffset] at hen
    dsimp only at hen
    omega
  have hunit' : Timedelta.unit (d + offset) k = Timedelta.unit (e + offset) k := by
    cases List.mem_cons.mp hafter with
    | inl heq => rw [heq, hunit]
    | inr hk =>
      rw [hsplit, List.pairwise_append, List.pairwise_cons] at hnests
      exact hnests.2.1.1 k hk _ _ hunit
  have hcount : G.timecount k d = G.timecount k e := by
    unfold timecount
    rw [h.utcOffset']
    dsimp only
    rw [hunit']
  rw [place_eq_bucket]
  refine ⟨hdref.trans h.referenceTime, hem.trans hcount.symm, hcount ▸ hle, before', after',
    hsplit', fun c' hc' => ?_⟩
  exact (hbefore' c' hc').trans_le (h.timecount_anti c' hlt.le)

variable [DecidableEq α]

/-- The latest versions stay the latest ones. -/
theorem rest_survivors (hdates : (versions.map date).Nodup) :
    F.rest date (F.survivors date versions) =
      (F.rest date versions).filter fun v => v ∉ F.filter date versions := by
  have hnodup : (F.latest date versions ++ F.rest date versions).Nodup := by
    rw [latest_append_rest]
    exact perm_sorted.nodup_iff.mpr (List.Nodup.of_map _ hdates)
  have hlatest : ((F.latest date versions).filter fun v => v ∉ F.filter date versions) =
      F.latest date versions := by
    refine List.filter_eq_self.mpr fun v hv => decide_eq_true fun hmem => ?_
    exact (List.nodup_append.mp hnodup).2.2 v hv v (filter_subset hmem) rfl
  have hsplit : sorted date (F.survivors date versions) = F.latest date versions ++
      (F.rest date versions).filter fun v => v ∉ F.filter date versions := by
    rw [sorted_survivors, ← latest_append_rest (F := F), List.filter_append, hlatest]
  have hrest : F.rest date (F.survivors date versions) =
      (sorted date (F.survivors date versions)).drop F.latestCount := rfl
  have hlength : (F.latest date versions).length = min F.latestCount versions.length :=
    (filter_partitions F date versions).latest
  rw [hrest, hsplit, List.drop_append]
  by_cases hcount : F.latestCount ≤ versions.length
  · rw [List.drop_eq_nil_of_le (by omega), List.nil_append, hlength]
    rw [Nat.min_eq_left hcount, Nat.sub_self, List.drop_zero]
  · have hnil : F.rest date versions = [] := by
      refine List.drop_eq_nil_of_le ?_
      rw [perm_sorted.length_eq]
      omega
    rw [hnil, List.filter_nil, List.drop_nil, List.append_nil]
    exact List.drop_eq_nil_of_le (by omega)

/-- The oldest version of a later bucket is not dismissed before. -/
theorem Later.oldest (h : Later F G offset) (hnests : F.categories.Pairwise Nests)
    (hdates : (versions.map date).Nodup) {u : α} {c : Category} {n : ℤ}
    (hu : u ∈ F.rest date versions) (hplace : G.place (date u) = .bucket c n) :
    ∃ o ∈ (F.rest date versions).filter fun v => v ∉ F.filter date versions,
      G.place (date o) = .bucket c n ∧ date o ≤ date u := by
  have hin : u ∈ G.inPlace date (.bucket c n) (G.rest date versions) := by
    rw [h.rest]
    exact List.mem_filter.mpr ⟨hu, decide_eq_true hplace⟩
  obtain ⟨o, hsplit, holdest⟩ := exists_oldest pairwise_inPlace (List.ne_nil_of_mem hin)
  have ho : o ∈ G.inPlace date (.bucket c n) (G.rest date versions) := by
    rw [hsplit]
    exact List.mem_append_right _ (List.mem_singleton.mpr rfl)
  have hoplace := place_of_mem_inPlace ho
  have horest : o ∈ F.rest date versions := by
    rw [← h.rest]
    exact List.mem_of_mem_filter ho
  have hkept : o ∉ F.filter date versions := by
    rw [mem_filter_of_nodup hdates]
    rintro ⟨-, htoo | ⟨k, m, hop, w, hw, hwp, hlt⟩⟩
    · rw [h.tooOld htoo] at hoplace
      cases hoplace
    · have hwplace := h.bucket hnests hwp hop hlt hoplace
      have hwin : w ∈ G.inPlace date (.bucket c n) (G.rest date versions) := by
        rw [h.rest]
        exact List.mem_filter.mpr ⟨hw, decide_eq_true hwplace⟩
      have hle := holdest w hwin
      omega
  exact ⟨o, List.mem_filter.mpr ⟨horest, decide_eq_true hkept⟩, hoplace, holdest u hin⟩

/-- What is dismissed at a later time is dismissed at once or after an earlier filter. -/
theorem Later.mem_filter (h : Later F G offset) (hnests : F.categories.Pairwise Nests)
    (hdates : (versions.map date).Nodup) {v : α} :
    v ∈ G.filter date versions ↔
      v ∈ F.filter date versions ∨ v ∈ G.filter date (F.survivors date versions) := by
  have hdates' : ((F.survivors date versions).map date).Nodup :=
    hdates.sublist (List.filter_sublist.map date)
  rw [mem_filter_of_nodup hdates, mem_filter_of_nodup hdates', h.rest, h.rest,
    rest_survivors hdates]
  constructor
  · rintro ⟨hv, hreason⟩
    by_cases hdropped : v ∈ F.filter date versions
    · exact .inl hdropped
    · refine .inr ⟨List.mem_filter.mpr ⟨hv, decide_eq_true hdropped⟩, ?_⟩
      cases hreason with
      | inl htoo => exact .inl htoo
      | inr hbucket =>
        obtain ⟨c, n, hvp, u, hu, hup, hlt⟩ := hbucket
        obtain ⟨o, ho, hop, hle⟩ := h.oldest hnests hdates hu hup
        exact .inr ⟨c, n, hvp, o, ho, hop, hle.trans_lt hlt⟩
  · rintro (hdropped | ⟨hv, hreason⟩)
    · obtain ⟨hv, hreason⟩ := (mem_filter_of_nodup hdates).mp hdropped
      refine ⟨hv, ?_⟩
      cases hreason with
      | inl htoo => exact .inl (h.tooOld htoo)
      | inr hbucket =>
        obtain ⟨c, n, hvp, u, hu, hup, hlt⟩ := hbucket
        have hvref := (place_eq_bucket.mp hvp).1
        cases hp : G.place (date v) with
        | future =>
          have href := h.referenceTime
          have hlate := place_eq_future.mp hp
          omega
        | tooOld => exact .inl rfl
        | bucket k m => exact .inr ⟨k, m, rfl, u, hu, h.bucket hnests hup hvp hlt hp, hlt⟩
    · refine ⟨List.mem_of_mem_filter hv, hreason.imp_right ?_⟩
      rintro ⟨c, n, hvp, u, hu, hup, hlt⟩
      exact ⟨c, n, hvp, u, List.mem_of_mem_filter hu, hup, hlt⟩

/-- Filtering in between does not matter if the units of the categories nest. -/
theorem survivors_survivors (h : Later F G offset) {chain : List Category}
    (hchain : chain ∈ chains) (hsub : F.categories ⊆ chain)
    (hdates : (versions.map date).Nodup) :
    G.survivors date (F.survivors date versions) = G.survivors date versions := by
  have hmem (v : α) := h.mem_filter (pairwise_nests hchain hsub) hdates (v := v)
  have hdef (H : RetentionFilter) (l : List α) :
      H.survivors date l = l.filter fun v => v ∉ H.filter date l := rfl
  rw [hdef G, hdef G versions]
  conv_lhs => rw [hdef F]
  rw [List.filter_filter]
  refine List.filter_congr fun v _ => ?_
  rw [← Bool.decide_and]
  refine decide_eq_decide.mpr ?_
  rw [hmem v]
  tauto

/-- The months between two dates, as whole years and what remains. -/
def ofMonths : Relativedelta where
  years a b := (a.date.months - b.date.months).tdiv 12
  months a b := (a.date.months - b.date.months).tmod 12
  months_roundDown a b := Int.tdiv_mul_add_tmod _ _
  years_roundDown a b := by
    have hyears : (Timedelta.roundDown a .year).date.months -
        (Timedelta.roundDown b .year).date.months = (a.date.year - b.date.year) * 12 := by
      simp only [Timedelta.roundDown, Lib.Calendar.Date.months]
      omega
    rw [hyears, Int.mul_tdiv_cancel _ (by decide)]

/-- `latest1,hours2,days3` at a time of 2023, in UTC. -/
def hourly (referenceTime : ℤ) : RetentionFilter where
  rules
    | .latest => some 1
    | .hours => some 2
    | .days => some 3
    | _ => none
  positive c n h := by
    cases c <;> simp only [reduceCtorEq, Option.some.injEq] at h <;> omega
  referenceTime := referenceTime
  utcOffset _ := 0
  relativedelta := ofMonths

theorem survivors_survivors_hourly :
    (hourly 63815004000000000).survivors id ((hourly 63814914000000000).survivors id
        [63814914000000000, 63814912200000000, 63814911300000000, 63814840200000000,
          63814836600000000]) =
      (hourly 63815004000000000).survivors id
        [63814914000000000, 63814912200000000, 63814911300000000, 63814840200000000,
          63814836600000000] := by
  have hlater : Later (hourly 63814914000000000) (hourly 63815004000000000) 0 :=
    ⟨rfl, rfl, rfl, by unfold hourly; dsimp only; omega⟩
  have hchain : [Category.hours, .days, .weeks] ∈ chains := List.mem_cons_self
  exact survivors_survivors hlater hchain (by decide) (by decide)

end RetentionFilter

end Benji

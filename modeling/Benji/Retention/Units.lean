import Benji.Retention.Filter
import Mathlib.Tactic.Ring

/-! The timecounts of a retention filter are differences of calendar units of local times, which
never decrease with time and are nested in one another. -/
namespace Benji
open Lib Lib.Calendar

namespace Timedelta
variable {x y t referenceTime : ℤ} {utcOffset : ℤ → ℤ} {relativedelta : Relativedelta}
  {td : Timedelta}

/-- The number of the hour, day, week, month or year that a local time is in. -/
def unit (x : ℤ) : Category → ℤ
  | .latest => 0
  | .hours => x / microsecondsPerHour
  | .days => x / microsecondsPerDay
  | .weeks => x / microsecondsPerWeek
  | .months => (Date.ofDays (x / microsecondsPerDay)).months
  | .years => (Date.ofDays (x / microsecondsPerDay)).year

theorem unit_mono (c : Category) (h : x ≤ y) : unit x c ≤ unit y c := by
  have hday : x / microsecondsPerDay ≤ y / microsecondsPerDay := by
    unfold microsecondsPerDay
    omega
  have hmonths : unit x .months ≤ unit y .months := by
    refine Date.months_le (Date.valid_ofDays _) (Date.valid_ofDays _) ?_
    rw [Date.toDays_ofDays, Date.toDays_ofDays]
    exact hday
  cases c with
  | latest => exact Int.le_refl 0
  | hours =>
    unfold unit microsecondsPerHour
    dsimp only
    omega
  | days => exact hday
  | weeks =>
    unfold unit microsecondsPerWeek
    dsimp only
    omega
  | months => exact hmonths
  | years =>
    unfold unit at hmonths ⊢
    dsimp only at hmonths ⊢
    rw [Date.year_eq _ (Date.valid_ofDays _), Date.year_eq _ (Date.valid_ofDays _)]
    omega

theorem unit_days_of_hours (h : unit x .hours = unit y .hours) :
    unit x .days = unit y .days := by
  unfold unit microsecondsPerHour microsecondsPerDay at *
  dsimp only at *
  omega

theorem unit_weeks_of_days (h : unit x .days = unit y .days) :
    unit x .weeks = unit y .weeks := by
  unfold unit microsecondsPerDay microsecondsPerWeek at *
  dsimp only at *
  omega

theorem unit_months_of_days (h : unit x .days = unit y .days) :
    unit x .months = unit y .months := by
  have h : x / microsecondsPerDay = y / microsecondsPerDay := h
  unfold unit
  dsimp only
  rw [h]

theorem unit_years_of_months (h : unit x .months = unit y .months) :
    unit x .years = unit y .years := by
  unfold unit at *
  dsimp only at *
  rw [Date.year_eq _ (Date.valid_ofDays _), Date.year_eq _ (Date.valid_ofDays _), h]

theorem roundDown_hour : (roundDown (.ofMicroseconds x) .hour).toMicroseconds =
    x / microsecondsPerHour * microsecondsPerHour := by
  unfold roundDown Calendar.DateTime.toMicroseconds Calendar.DateTime.ofMicroseconds
    microsecondsPerHour
  dsimp only
  rw [Date.toDays_ofDays]
  omega

theorem roundDown_day : (roundDown (.ofMicroseconds x) .day).toMicroseconds =
    x / microsecondsPerDay * microsecondsPerDay := by
  unfold roundDown Calendar.DateTime.toMicroseconds Calendar.DateTime.ofMicroseconds
    microsecondsPerDay
  dsimp only
  rw [Date.toDays_ofDays]
  omega

/-- Weeks begin on the Mondays from 1 January of year 1 on. -/
theorem roundDown_week : (roundDown (.ofMicroseconds x) .week).toMicroseconds =
    x / microsecondsPerWeek * microsecondsPerWeek := by
  have hday := roundDown_day (x := x)
  unfold roundDown at hday ⊢
  dsimp only at hday ⊢
  rw [Calendar.DateTime.toMicroseconds_ofMicroseconds, hday]
  unfold Calendar.DateTime.ofMicroseconds microsecondsPerWeek microsecondsPerDay
  dsimp only
  rw [Date.toDays_ofDays]
  omega

/-- The timecount of each category is a difference of units. -/
theorem get_init (h : init relativedelta t referenceTime utcOffset = some td) (c : Category) :
    td.get c = unit (referenceTime + utcOffset referenceTime) c - unit (t + utcOffset t) c := by
  obtain ⟨-, heq⟩ := Option.ite_none_left_eq_some.mp h
  rw [← Option.some.inj heq]
  unfold get unit
  cases c with
  | latest => rfl
  | hours =>
    dsimp only
    rw [roundDown_hour, roundDown_hour]
    unfold microsecondsPerHour
    omega
  | days =>
    dsimp only
    rw [roundDown_day, roundDown_day]
    unfold microsecondsPerDay
    omega
  | weeks =>
    dsimp only
    rw [roundDown_week, roundDown_week]
    unfold microsecondsPerWeek
    omega
  | months =>
    exact relativedelta.months_roundDown _ _
  | years =>
    exact relativedelta.years_roundDown _ _

theorem init_eq_none : init relativedelta t referenceTime utcOffset = none ↔ referenceTime < t := by
  unfold init
  rw [ite_eq_left_iff]
  constructor
  · intro h
    by_contra hle
    cases h (by omega)
  · intro h hle
    omega

end Timedelta

namespace RetentionFilter
variable (F : RetentionFilter)

def limit (c : Category) : ℤ := ((F.rules c).getD 0 : ℕ)

def timecount (c : Category) (date : ℤ) : ℤ :=
  Timedelta.unit (F.referenceTime + F.utcOffset F.referenceTime) c -
    Timedelta.unit (date + F.utcOffset date) c

variable {F} {date : ℤ} {c : Category} {n : ℤ}

theorem place_eq_future : F.place date = .future ↔ F.referenceTime < date := by
  have hinit := @Timedelta.init_eq_none date F.referenceTime F.utcOffset F.relativedelta
  rw [← hinit]
  unfold place
  cases Timedelta.init F.relativedelta date F.referenceTime F.utcOffset with
  | none => simp
  | some td =>
    dsimp only
    cases F.categories.find? fun c => td.get c ≤ ((F.rules c).getD 0 : ℕ) <;> simp

theorem place_of_le (h : date ≤ F.referenceTime) :
    F.place date = match F.categories.find? fun c => F.timecount c date ≤ F.limit c with
      | some c => .bucket c (F.timecount c date)
      | none => .tooOld := by
  unfold place
  cases htd : Timedelta.init F.relativedelta date F.referenceTime F.utcOffset with
  | none => exact absurd (Timedelta.init_eq_none.mp htd) (by omega)
  | some td =>
    have hget (c : Category) : td.get c = F.timecount c date := Timedelta.get_init htd c
    simp only [hget]
    rfl

/-- The category is the first one in order whose limit the timecount does not exceed. -/
theorem place_eq_bucket : F.place date = .bucket c n ↔
    date ≤ F.referenceTime ∧ n = F.timecount c date ∧ F.timecount c date ≤ F.limit c ∧
      ∃ before after, F.categories = before ++ c :: after ∧
        ∀ c' ∈ before, F.limit c' < F.timecount c' date := by
  by_cases h : date ≤ F.referenceTime
  · rw [place_of_le h]
    cases hfind : F.categories.find? fun c => F.timecount c date ≤ F.limit c with
    | none =>
      have hall := List.find?_eq_none.mp hfind
      dsimp only
      constructor
      · intro heq
        cases heq
      · rintro ⟨-, -, hle, before, after, heq, -⟩
        have hmem : c ∈ F.categories := by
          rw [heq]
          exact List.mem_append_right _ List.mem_cons_self
        exact absurd (decide_eq_true hle) (hall c hmem)
    | some c₀ =>
      obtain ⟨hle, before, after, heq, hbefore⟩ := List.find?_eq_some_iff_append.mp hfind
      have hle : F.timecount c₀ date ≤ F.limit c₀ := of_decide_eq_true hle
      have hbefore : ∀ c' ∈ before, F.limit c' < F.timecount c' date := by
        intro c' hc'
        have hnot := hbefore c' hc'
        simpa using hnot
      dsimp only
      constructor
      · intro hp
        cases hp
        exact ⟨h, rfl, hle, before, after, heq, hbefore⟩
      · rintro ⟨-, hn, hle', before', after', heq', hbefore'⟩
        have hc : c₀ = c := by
          have hfind' : (F.categories.find? fun c => F.timecount c date ≤ F.limit c) = some c :=
            List.find?_eq_some_iff_append.mpr ⟨decide_eq_true hle', before', after', heq',
              fun c' hc' => by simpa using hbefore' c' hc'⟩
          exact Option.some.inj (hfind.symm.trans hfind')
        rw [hn, hc]
  · constructor
    · intro hp
      have hfuture := place_eq_future.mpr (lt_of_not_ge h)
      rw [hp] at hfuture
      cases hfuture
    · rintro ⟨hle, -⟩
      exact absurd hle h

theorem place_eq_tooOld : F.place date = .tooOld ↔
    date ≤ F.referenceTime ∧ ∀ c ∈ F.categories, F.limit c < F.timecount c date := by
  by_cases h : date ≤ F.referenceTime
  · rw [place_of_le h]
    cases hfind : F.categories.find? fun c => F.timecount c date ≤ F.limit c with
    | none =>
      have hall := List.find?_eq_none.mp hfind
      refine ⟨fun _ => ⟨h, fun c hc => ?_⟩, fun _ => rfl⟩
      simpa using hall c hc
    | some c₀ =>
      obtain ⟨hle, -⟩ := List.find?_eq_some_iff_append.mp hfind
      have hle : F.timecount c₀ date ≤ F.limit c₀ := of_decide_eq_true hle
      dsimp only
      constructor
      · intro hp
        cases hp
      · rintro ⟨-, hall⟩
        have hlt := hall c₀ (List.mem_of_find?_eq_some hfind)
        omega
  · constructor
    · intro hp
      have hfuture := place_eq_future.mpr (lt_of_not_ge h)
      rw [hp] at hfuture
      cases hfuture
    · rintro ⟨hle, -⟩
      exact absurd hle h

theorem mem_categories : c ∈ F.categories ↔ (F.rules c).isSome ∧ c ≠ .latest := by
  unfold categories
  rw [List.mem_filter]
  constructor
  · rintro ⟨-, h⟩
    exact of_decide_eq_true h
  · intro h
    refine ⟨?_, decide_eq_true h⟩
    cases c <;> decide

/-- A past version is not older than the rule of a category allows. -/
def Fits (F : RetentionFilter) (c : Category) (date : ℤ) : Prop :=
  c ≠ .latest ∧ ∃ limit, F.rules c = some limit ∧ F.timecount c date ≤ limit

theorem fits_iff : F.Fits c date ↔ c ∈ F.categories ∧ F.timecount c date ≤ F.limit c := by
  rw [mem_categories, limit]
  constructor
  · rintro ⟨hne, limit, hrule, hle⟩
    rw [hrule]
    exact ⟨⟨rfl, hne⟩, hle⟩
  · rintro ⟨⟨hsome, hne⟩, hle⟩
    obtain ⟨limit, hrule⟩ := Option.isSome_iff_exists.mp hsome
    rw [hrule] at hle
    exact ⟨hne, limit, hrule, hle⟩

theorem place_eq_tooOld_iff : F.place date = .tooOld ↔
    date ≤ F.referenceTime ∧ ∀ c, ¬ F.Fits c date := by
  rw [place_eq_tooOld]
  refine and_congr_right fun _ => forall_congr' fun c => ?_
  rw [fits_iff, not_and, not_le]

/-- The first category in the order of all categories whose rule the version fits. -/
theorem place_eq_bucket_iff : F.place date = .bucket c n ↔
    date ≤ F.referenceTime ∧ n = F.timecount c date ∧ F.Fits c date ∧
      ∃ before after, Category.validCategories = before ++ c :: after ∧
        ∀ c' ∈ before, ¬ F.Fits c' date := by
  have hfind (c : Category) : (F.categories.find? fun c => F.timecount c date ≤ F.limit c) =
      some c ↔ F.Fits c date ∧ ∃ before after, Category.validCategories = before ++ c :: after ∧
        ∀ c' ∈ before, ¬ F.Fits c' date := by
    have hfits (c : Category) : ((F.rules c).isSome ∧ c ≠ .latest) ∧
        F.timecount c date ≤ F.limit c ↔ F.Fits c date := by rw [fits_iff, mem_categories]
    rw [categories, List.find?_filter, List.find?_eq_some_iff_append]
    simp only [Bool.not_eq_true', decide_eq_true_eq, decide_eq_false_iff_not, hfits]
  by_cases h : date ≤ F.referenceTime
  · rw [place_of_le h]
    cases hplace : F.categories.find? fun c => F.timecount c date ≤ F.limit c with
    | none =>
      dsimp only
      refine ⟨fun heq => (nomatch heq), ?_⟩
      rintro ⟨-, -, hc⟩
      rw [(hfind c).mpr hc] at hplace
      cases hplace
    | some c₀ =>
      dsimp only
      rw [Place.bucket.injEq]
      constructor
      · rintro ⟨rfl, rfl⟩
        exact ⟨h, rfl, (hfind c₀).mp hplace⟩
      · rintro ⟨-, rfl, hc⟩
        obtain rfl : c₀ = c := Option.some.inj (hplace.symm.trans ((hfind c).mpr hc))
        exact ⟨rfl, rfl⟩
  · refine ⟨fun hp => ?_, fun hp => absurd hp.1 h⟩
    have hfuture := place_eq_future.mpr (lt_of_not_ge h)
    rw [hp] at hfuture
    cases hfuture

theorem nodup_categories : F.categories.Nodup := by
  refine List.Nodup.filter _ ?_
  decide

end RetentionFilter

end Benji

import Mathlib.Data.Int.Notation
import Mathlib.Tactic.Linarith

/-! The proleptic Gregorian calendar. A date goes by its number of days since 1 January of year 1,
which is a Monday, and a time by its number of microseconds since then. -/
namespace Lib.Calendar

def isLeap (year : ℤ) : Bool := year % 4 = 0 ∧ (year % 100 ≠ 0 ∨ year % 400 = 0)

/-- The days before 1 January of the year. -/
def daysBeforeYear (year : ℤ) : ℤ :=
  (year - 1) * 365 + (year - 1) / 4 - (year - 1) / 100 + (year - 1) / 400

def daysInMonth (leap : Bool) : ℕ → ℕ
  | 2 => if leap then 29 else 28
  | 4 => 30
  | 6 => 30
  | 9 => 30
  | 11 => 30
  | _ => 31

/-- The days before the first of the month in its year. -/
def daysBeforeMonth (leap : Bool) : ℕ → ℕ
  | 0 => 0
  | month + 1 => if month = 0 then 0 else daysBeforeMonth leap month + daysInMonth leap month

structure Date where
  year : ℤ
  month : ℕ
  day : ℕ
  deriving DecidableEq, Repr

def Date.toDays (d : Date) : ℤ :=
  daysBeforeYear d.year + daysBeforeMonth (isLeap d.year) d.month + d.day - 1

/-- Month and day of the day of a year that has `n` days before it. -/
def monthDay (leap : Bool) (n : ℕ) : ℕ × ℕ :=
  let month := (n + 50) / 32
  if n < daysBeforeMonth leap month then
    (month - 1, n - daysBeforeMonth leap (month - 1) + 1)
  else (month, n - daysBeforeMonth leap month + 1)

/-- Whole cycles of 400, 100, 4 years and 1 year are taken off one after the other. -/
def Date.ofDays (n : ℤ) : Date :=
  let n400 := n / 146097
  let m400 := n % 146097
  let n100 := m400 / 36524
  let m100 := m400 % 36524
  let n4 := m100 / 1461
  let m4 := m100 % 1461
  let n1 := m4 / 365
  let year := n400 * 400 + n100 * 100 + n4 * 4 + n1 + 1
  -- The last day of a leap year is not in the cycles.
  if n1 = 4 ∨ n100 = 4 then ⟨year - 1, 12, 31⟩
  else
    let p := monthDay (n1 = 3 ∧ (n4 ≠ 24 ∨ n100 = 3)) (m4 % 365).toNat
    ⟨year, p.1, p.2⟩

structure Date.Valid (d : Date) : Prop where
  one_le_month : 1 ≤ d.month
  month_le : d.month ≤ 12
  one_le_day : 1 ≤ d.day
  day_le : d.day ≤ daysInMonth (isLeap d.year) d.month

theorem monthDay_spec (leap : Bool) : ∀ n < 365,
    1 ≤ (monthDay leap n).1 ∧ (monthDay leap n).1 ≤ 12 ∧ 1 ≤ (monthDay leap n).2 ∧
      (monthDay leap n).2 ≤ daysInMonth leap (monthDay leap n).1 ∧
      daysBeforeMonth leap (monthDay leap n).1 + (monthDay leap n).2 = n + 1 := by
  cases leap <;> decide +kernel

/-- The number of days before a year that lies so far into the cycles. -/
theorem daysBeforeYear_cycles {a b c d : ℤ} (hb : 0 ≤ b ∧ b ≤ 3) (hc : 0 ≤ c ∧ c ≤ 24)
    (hd : 0 ≤ d ∧ d ≤ 3) :
    daysBeforeYear (a * 400 + b * 100 + c * 4 + d + 1) =
      146097 * a + 36524 * b + 1461 * c + 365 * d := by
  have h4 : (a * 400 + b * 100 + c * 4 + d + 1 - 1) / 4 = a * 100 + b * 25 + c := by omega
  have h100 : (a * 400 + b * 100 + c * 4 + d + 1 - 1) / 100 = a * 4 + b := by omega
  have h400 : (a * 400 + b * 100 + c * 4 + d + 1 - 1) / 400 = a := by omega
  rw [daysBeforeYear, h4, h100, h400]
  omega

theorem isLeap_cycles {a b c d : ℤ} (hb : 0 ≤ b ∧ b ≤ 3) (hc : 0 ≤ c ∧ c ≤ 24)
    (hd : 0 ≤ d ∧ d ≤ 3) :
    isLeap (a * 400 + b * 100 + c * 4 + d + 1) = decide (d = 3 ∧ (c ≠ 24 ∨ b = 3)) := by
  unfold isLeap
  rw [decide_eq_decide]
  omega

theorem daysBeforeMonth_twelve (leap : Bool) :
    daysBeforeMonth leap 12 = if leap then 335 else 334 := by
  cases leap <;> decide

theorem Date.ofDays_spec (n : ℤ) : (Date.ofDays n).Valid ∧ (Date.ofDays n).toDays = n := by
  obtain ⟨a, ha⟩ : ∃ a, n / 146097 = a := ⟨_, rfl⟩
  obtain ⟨b, hb⟩ : ∃ b, n % 146097 / 36524 = b := ⟨_, rfl⟩
  obtain ⟨c, hc⟩ : ∃ c, n % 146097 % 36524 / 1461 = c := ⟨_, rfl⟩
  obtain ⟨d, hd⟩ : ∃ d, n % 146097 % 36524 % 1461 / 365 = d := ⟨_, rfl⟩
  obtain ⟨r, hr⟩ : ∃ r, n % 146097 % 36524 % 1461 % 365 = r := ⟨_, rfl⟩
  have hn : n = 146097 * a + 36524 * b + 1461 * c + 365 * d + r := by omega
  have hr365 : 0 ≤ r ∧ r < 365 := by omega
  have hc24 : 0 ≤ c ∧ c ≤ 24 := by omega
  unfold Date.ofDays
  dsimp only
  rw [ha, hb, hc, hd, hr]
  by_cases hlast : d = 4 ∨ b = 4
  · rw [if_pos hlast]
    -- The day is the last of the year before.
    have hyear : ∃ b' c' d', (0 ≤ b' ∧ b' ≤ 3) ∧ (0 ≤ c' ∧ c' ≤ 24) ∧ d' = 3 ∧
        (c' ≠ 24 ∨ b' = 3) ∧
        a * 400 + b * 100 + c * 4 + d + 1 - 1 = a * 400 + b' * 100 + c' * 4 + d' + 1 ∧
        n = 146097 * a + 36524 * b' + 1461 * c' + 365 * d' + 365 := by
      by_cases hb4 : b = 4
      · exact ⟨3, 24, 3, by omega, by omega, rfl, .inr rfl, by omega, by omega⟩
      · exact ⟨b, c, 3, by omega, by omega, rfl, by omega, by omega, by omega⟩
    obtain ⟨b', c', d', hb', hc', hd', hleap, hyear, hn'⟩ := hyear
    rw [hyear]
    have hl : isLeap (a * 400 + b' * 100 + c' * 4 + d' + 1) = true := by
      rw [isLeap_cycles hb' hc' (by omega)]
      exact decide_eq_true ⟨hd', hleap⟩
    constructor
    · constructor
      · show 1 ≤ 12
        omega
      · show 12 ≤ 12
        omega
      · show 1 ≤ 31
        omega
      · exact Nat.le_refl 31
    · show daysBeforeYear _ + (daysBeforeMonth (isLeap _) 12 : ℕ) + (31 : ℕ) - 1 = n
      rw [daysBeforeYear_cycles hb' hc' (by omega), hl, daysBeforeMonth_twelve]
      simp only [if_true]
      omega
  · rw [if_neg hlast]
    have hb3 : 0 ≤ b ∧ b ≤ 3 := by omega
    have hd3 : 0 ≤ d ∧ d ≤ 3 := by omega
    have hl := isLeap_cycles (a := a) hb3 hc24 hd3
    obtain ⟨h1, h2, h3, h4, h5⟩ :=
      monthDay_spec (isLeap (a * 400 + b * 100 + c * 4 + d + 1)) r.toNat (by omega)
    rw [← hl]
    constructor
    · exact ⟨h1, h2, h3, h4⟩
    · show daysBeforeYear _ + (daysBeforeMonth (isLeap _) _ : ℕ) + (_ : ℕ) - 1 = n
      rw [daysBeforeYear_cycles hb3 hc24 hd3]
      dsimp only
      omega

theorem Date.valid_ofDays (n : ℤ) : (Date.ofDays n).Valid := (Date.ofDays_spec n).1

@[simp] theorem Date.toDays_ofDays (n : ℤ) : (Date.ofDays n).toDays = n := (Date.ofDays_spec n).2

theorem daysBeforeYear_succ (year : ℤ) :
    daysBeforeYear (year + 1) = daysBeforeYear year + if isLeap year then 366 else 365 := by
  unfold daysBeforeYear isLeap
  simp only [decide_eq_true_eq]
  split <;> omega

theorem daysBeforeYear_mono {a b : ℤ} (h : a ≤ b) : daysBeforeYear a ≤ daysBeforeYear b := by
  unfold daysBeforeYear
  omega

theorem daysBeforeMonth_mono (leap : Bool) : ∀ m ≤ 12, ∀ n < m,
    1 ≤ n → daysBeforeMonth leap n + daysInMonth leap n ≤ daysBeforeMonth leap m := by
  cases leap <;> decide +kernel

/-- The days of a month end before the next year begins. -/
theorem daysBeforeMonth_le (leap : Bool) : ∀ m ≤ 12, 1 ≤ m →
    daysBeforeMonth leap m + daysInMonth leap m ≤ if leap then 366 else 365 := by
  cases leap <;> decide +kernel

/-- The months from year 0 on. -/
def Date.months (d : Date) : ℤ := 12 * d.year + d.month - 1

theorem Date.year_eq (d : Date) (h : d.Valid) : d.year = d.months / 12 := by
  have h1 := h.one_le_month
  have h2 := h.month_le
  unfold Date.months
  omega

namespace Date
variable {d e : Date}

theorem toDays_lt_of_year_lt (hd : d.Valid) (he : e.Valid) (h : d.year < e.year) :
    d.toDays < e.toDays := by
  have hnext := daysBeforeYear_mono (show d.year + 1 ≤ e.year by omega)
  have hmonth := daysBeforeMonth_le (isLeap d.year) d.month hd.month_le hd.one_le_month
  have hday := hd.day_le
  have hone := he.one_le_day
  rw [daysBeforeYear_succ] at hnext
  unfold toDays
  split at hnext <;> split at hmonth <;> first | omega | contradiction

theorem toDays_lt_of_month_lt (hd : d.Valid) (he : e.Valid) (hyear : d.year = e.year)
    (h : d.month < e.month) : d.toDays < e.toDays := by
  have hmonth := daysBeforeMonth_mono (isLeap d.year) e.month he.month_le d.month h
    hd.one_le_month
  have hday := hd.day_le
  have hone := he.one_le_day
  unfold toDays
  rw [← hyear]
  omega

theorem months_le (hd : d.Valid) (he : e.Valid) (h : d.toDays ≤ e.toDays) :
    d.months ≤ e.months := by
  have h1 := hd.one_le_month
  have h2 := hd.month_le
  have h3 := he.one_le_month
  have h4 := he.month_le
  by_contra hlt
  unfold months at hlt
  by_cases hyear : e.year < d.year
  · have hdays := toDays_lt_of_year_lt he hd hyear
    omega
  · have hdays := toDays_lt_of_month_lt he hd (by omega) (by omega)
    omega

/-- A day has one date. -/
theorem eq_of_toDays_eq (hd : d.Valid) (he : e.Valid) (h : d.toDays = e.toDays) : d = e := by
  have hyear : d.year = e.year := by
    rcases lt_trichotomy d.year e.year with hlt | heq | hlt
    · have hdays := toDays_lt_of_year_lt hd he hlt
      omega
    · exact heq
    · have hdays := toDays_lt_of_year_lt he hd hlt
      omega
  have hmonth : d.month = e.month := by
    rcases lt_trichotomy d.month e.month with hlt | heq | hlt
    · have hdays := toDays_lt_of_month_lt hd he hyear hlt
      omega
    · exact heq
    · have hdays := toDays_lt_of_month_lt he hd hyear.symm hlt
      omega
  obtain ⟨year, month, day⟩ := d
  obtain ⟨year', month', day'⟩ := e
  dsimp only at hyear hmonth
  subst hyear hmonth
  have hday : day = day' := by
    unfold toDays at h
    dsimp only at h
    omega
  rw [hday]

theorem ofDays_toDays (hd : d.Valid) : ofDays d.toDays = d :=
  eq_of_toDays_eq (valid_ofDays _) hd (toDays_ofDays _)

/-- As many months later, on the last day of the month if the day does not exist. -/
def addMonths (d : Date) (months : ℕ) : Date :=
  let year := d.year + ((d.month - 1 + months) / 12 : ℕ)
  let month := (d.month - 1 + months) % 12 + 1
  ⟨year, month, min d.day (daysInMonth (isLeap year) month)⟩

/-- Two months from a day in the first ten months, by the month and whether the year is a leap
year. -/
theorem daysBeforeMonth_two (leap : Bool) : ∀ m < 10, ∀ day < 32, day ≤ daysInMonth leap (m + 1) →
    daysBeforeMonth leap (m + 1) + day + 59 ≤
      daysBeforeMonth leap (m + 3) + min day (daysInMonth leap (m + 3)) ∧
    daysBeforeMonth leap (m + 3) + min day (daysInMonth leap (m + 3)) ≤
      daysBeforeMonth leap (m + 1) + day + 62 := by
  cases leap <;> decide +kernel

/-- The same over the end of the year. -/
theorem daysBeforeMonth_two_over (leap next : Bool) : ∀ m < 2, ∀ day < 32,
    day ≤ daysInMonth leap (m + 11) →
    daysBeforeMonth leap (m + 11) + day + 59 ≤ (if leap then 366 else 365) +
      (daysBeforeMonth next (m + 1) + min day (daysInMonth next (m + 1))) ∧
    (if leap then 366 else 365) + (daysBeforeMonth next (m + 1) +
      min day (daysInMonth next (m + 1))) ≤ daysBeforeMonth leap (m + 11) + day + 62 := by
  cases leap <;> cases next <;> decide +kernel

theorem daysInMonth_le (leap : Bool) (m : ℕ) : daysInMonth leap m ≤ 31 := by
  unfold daysInMonth
  split <;> (try split) <;> omega

theorem toDays_addMonths_two (hd : d.Valid) :
    d.toDays + 59 ≤ (d.addMonths 2).toDays ∧ (d.addMonths 2).toDays ≤ d.toDays + 62 := by
  have h1 := hd.one_le_month
  have h2 := hd.month_le
  have hday := hd.day_le
  have h31 := daysInMonth_le (isLeap d.year) d.month
  by_cases hm : d.month ≤ 10
  · obtain ⟨m, hm10, hmonth⟩ : ∃ m < 10, d.month = m + 1 := ⟨d.month - 1, by omega, by omega⟩
    have hbounds := daysBeforeMonth_two (isLeap d.year) m hm10 d.day (by omega) (hmonth ▸ hday)
    have hadd :
        d.addMonths 2 = ⟨d.year, m + 3, min d.day (daysInMonth (isLeap d.year) (m + 3))⟩ := by
      have hdiv : (d.month - 1 + 2) / 12 = 0 := by omega
      have hmod : (d.month - 1 + 2) % 12 + 1 = m + 3 := by omega
      simp only [addMonths, hdiv, hmod, Nat.cast_zero, add_zero]
    rw [hadd, toDays, toDays, hmonth]
    dsimp only
    omega
  · obtain ⟨m, hm2, hmonth⟩ : ∃ m < 2, d.month = m + 11 := ⟨d.month - 11, by omega, by omega⟩
    have hbounds := daysBeforeMonth_two_over (isLeap d.year) (isLeap (d.year + 1)) m hm2 d.day
      (by omega) (hmonth ▸ hday)
    have hadd : d.addMonths 2 =
        ⟨d.year + 1, m + 1, min d.day (daysInMonth (isLeap (d.year + 1)) (m + 1))⟩ := by
      have hdiv : (d.month - 1 + 2) / 12 = 1 := by omega
      have hmod : (d.month - 1 + 2) % 12 + 1 = m + 1 := by omega
      simp only [addMonths, hdiv, hmod, Nat.cast_one]
    have hyear : daysBeforeYear (d.year + 1) = daysBeforeYear d.year +
        ((if isLeap d.year then 366 else 365 : ℕ) : ℤ) := by
      rw [daysBeforeYear_succ]
      split <;> rfl
    rw [hadd, toDays, toDays, hmonth]
    dsimp only
    rw [hyear]
    omega

end Date

/-- A date with a time of the day. -/
structure DateTime where
  date : Date
  hour : ℤ
  minute : ℤ
  second : ℤ
  microsecond : ℤ
  deriving DecidableEq, Repr

namespace DateTime

def toMicroseconds (t : DateTime) : ℤ :=
  (((t.date.toDays * 24 + t.hour) * 60 + t.minute) * 60 + t.second) * 1000000 + t.microsecond

def ofMicroseconds (x : ℤ) : DateTime where
  date := .ofDays (x / 86400000000)
  hour := x / 3600000000 % 24
  minute := x / 60000000 % 60
  second := x / 1000000 % 60
  microsecond := x % 1000000

@[simp] theorem toMicroseconds_ofMicroseconds (x : ℤ) : (ofMicroseconds x).toMicroseconds = x := by
  unfold toMicroseconds ofMicroseconds
  dsimp only
  rw [Date.toDays_ofDays]
  omega

end DateTime

end Lib.Calendar

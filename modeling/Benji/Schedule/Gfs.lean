import Benji.Lib.Calendar
import Benji.Schedule.Expiry

/-! The default retention policy, grandfather-father-son: which of the daily backups of a volume
are there on a day. -/
namespace Benji.Schedule
open Lib
open Calendar (Date daysInMonth daysBeforeMonth daysBeforeYear isLeap)

def son : ℤ := 8
def father : ℤ := 5
def grandfather : ℕ := 2

/-- The days from 1 January of year 1 to that of 1970. -/
def epochDay : ℤ := 719162

def dateOf (clock : ℤ) : Date := .ofDays (dayOf clock + epochDay)

/-- The clock at the same time of another date. -/
def clockAt (date : Date) (clock : ℤ) : ℤ := (date.toDays - epochDay) * 86400 + clock % 86400

section Policy
variable (utcoffset : ℤ → ℤ) (utcNow : ℤ)

/-- Of the day of the server. -/
def isMonthEnd : Bool :=
  let date := dateOf (today utcoffset utcNow)
  let nextMonth := Date.ofDays (Date.toDays { date with day := 28 } + 4)
  let lastDayOfMonth := nextMonth.toDays - nextMonth.day
  date.toDays = lastDayOfMonth

def isWeekend : Bool := weekdayOf (dayOf (today utcoffset utcNow)) = 6

/-- The expiry is a time in Saigon, counted from the date there. -/
def doCheckGfs (retention : ℤ) : Option ℤ :=
  let now := getLocalTime utcNow
  if retention ≠ -1 ∧ retention > 0 then some (now + retention * 86400)
  else if retention = -1 then
    if isMonthEnd utcoffset utcNow then some (clockAt ((dateOf now).addMonths grandfather) now)
    else if isWeekend utcoffset utcNow then some (now + father * 7 * 86400)
    else some (now + son * 86400)
  else none

end Policy

/-! ### The end of a month -/

section MonthEnd
variable {d : Date}

/-- Days beyond the end of a month are counted in the next one. -/
theorem toDays_next_month (hd : d.Valid) {k : ℕ} (hk : 1 ≤ k ∧ k ≤ 28) :
    ∃ e : Date, e.Valid ∧ e.day = k ∧
      e.toDays = Date.toDays { d with day := daysInMonth (isLeap d.year) d.month + k } := by
  have h28 : ∀ leap m, 28 ≤ daysInMonth leap m := by
    intro leap m
    unfold daysInMonth
    split <;> (try split) <;> omega
  have h1 := hd.one_le_month
  have h2 := hd.month_le
  by_cases hm : d.month < 12
  · refine ⟨⟨d.year, d.month + 1, k⟩, ⟨?_, ?_, hk.1, hk.2.trans (h28 _ _)⟩, rfl, ?_⟩
    · exact Nat.le_add_left 1 _
    · exact hm
    · have hnext : daysBeforeMonth (isLeap d.year) (d.month + 1) =
          daysBeforeMonth (isLeap d.year) d.month + daysInMonth (isLeap d.year) d.month := by
        rw [daysBeforeMonth, if_neg (by omega)]
      simp only [Date.toDays, hnext]
      omega
  · have h12 : d.month = 12 := by omega
    refine ⟨⟨d.year + 1, 1, k⟩,
      ⟨le_refl 1, Nat.le_add_left 1 11, hk.1, hk.2.trans (h28 _ _)⟩, rfl, ?_⟩
    have hyear := Calendar.daysBeforeYear_succ d.year
    have hdec := Calendar.daysBeforeMonth_twelve (isLeap d.year)
    have hjan : daysBeforeMonth (isLeap (d.year + 1)) 1 = 0 := rfl
    have h31 : daysInMonth (isLeap d.year) 12 = 31 := rfl
    simp only [Date.toDays, h12, hyear, hdec, hjan, h31]
    split <;> omega

theorem isMonthEnd_iff {utcoffset : ℤ → ℤ} {utcNow : ℤ} :
    isMonthEnd utcoffset utcNow = true ↔ (dateOf (today utcoffset utcNow)).day =
      daysInMonth (isLeap (dateOf (today utcoffset utcNow)).year)
        (dateOf (today utcoffset utcNow)).month := by
  have hd : (dateOf (today utcoffset utcNow)).Valid := Calendar.Date.valid_ofDays _
  unfold isMonthEnd
  generalize dateOf (today utcoffset utcNow) = d at hd
  have h28 : 28 ≤ daysInMonth (isLeap d.year) d.month := by
    unfold daysInMonth
    split <;> (try split) <;> omega
  have h31 := Date.daysInMonth_le (isLeap d.year) d.month
  obtain ⟨e, he, hday, hdays⟩ := toDays_next_month hd
    (k := 32 - daysInMonth (isLeap d.year) d.month) (by omega)
  have hnext : Date.ofDays (Date.toDays { d with day := 28 } + 4) = e := by
    have heq : Date.toDays { d with day := 28 } + 4 = e.toDays := by
      rw [hdays]
      simp only [Date.toDays]
      omega
    rw [heq, Date.ofDays_toDays he]
  dsimp only
  rw [hnext, hdays, hday, decide_eq_true_iff]
  simp only [Date.toDays]
  omega

end MonthEnd

/-! ### When a backup expires -/

section Span
variable {utcoffset : ℤ → ℤ} {utcNow : ℤ}

/-- For how many days a backup of the default policy is kept. -/
def span (utcoffset : ℤ → ℤ) (utcNow : ℤ) : ℤ :=
  if isMonthEnd utcoffset utcNow then
    ((dateOf (getLocalTime utcNow)).addMonths grandfather).toDays -
      (dateOf (getLocalTime utcNow)).toDays
  else if isWeekend utcoffset utcNow then 35
  else 8

theorem dayOf_add_days (clock days : ℤ) : dayOf (clock + days * 86400) = dayOf clock + days := by
  unfold dayOf
  omega

theorem dayOf_clockAt (date : Date) (clock : ℤ) : dayOf (clockAt date clock) =
    date.toDays - epochDay := by
  unfold dayOf clockAt
  omega

theorem toDays_dateOf (clock : ℤ) : (dateOf clock).toDays = dayOf clock + epochDay :=
  Date.toDays_ofDays _

/-- The default policy gives every backup an expiry, `span` days later. -/
theorem doCheckGfs_default : ∃ e, doCheckGfs utcoffset utcNow (-1) = some e ∧
    dayOf e = dayOfRun utcNow + span utcoffset utcNow := by
  unfold doCheckGfs span dayOfRun
  rw [if_neg (by decide), if_pos rfl]
  split
  · refine ⟨_, rfl, ?_⟩
    rw [dayOf_clockAt, toDays_dateOf]
    omega
  · split
    · exact ⟨_, rfl, dayOf_add_days _ _⟩
    · exact ⟨_, rfl, dayOf_add_days _ _⟩

theorem span_monthEnd (h : isMonthEnd utcoffset utcNow = true) :
    59 ≤ span utcoffset utcNow ∧ span utcoffset utcNow ≤ 62 := by
  have hbounds := Date.toDays_addMonths_two
    (Calendar.Date.valid_ofDays (dayOf (getLocalTime utcNow) + epochDay))
  rw [span, if_pos h]
  unfold dateOf grandfather
  omega

theorem span_bounds : 8 ≤ span utcoffset utcNow ∧ span utcoffset utcNow ≤ 62 := by
  by_cases h : isMonthEnd utcoffset utcNow = true
  · have hbounds := span_monthEnd h
    omega
  · rw [span, if_neg h]
    split <;> omega

end Span

/-! ### Daily backups -/

/-- A volume that is backed up every day, with the default policy, and the task that removes what
has expired, once a day. -/
structure Daily where
  utcoffset : ℤ → ℤ
  first : ℤ
  uid : ℕ → String
  me : Process
  faults : ℕ → Faults
  cleanup : ℕ → ℤ
  uid_injective : Function.Injective uid
  no_fault : ∀ i v, (faults i).remove v = none
  same_day : ∀ i : ℕ, dayOfRun (cleanup i) = dayOfRun first + i

namespace Daily

def backupTime (p : Daily) (i : ℕ) : ℤ := p.first + i * 86400

def row (p : Daily) (i : ℕ) : VersionRow :=
  ⟨p.uid i, false, doCheckGfs p.utcoffset (p.backupTime i) (-1)⟩

def day (p : Daily) (i : ℕ) : List Event :=
  [.create (p.row i), .deleteExpired p.me (p.faults i) (p.cleanup i)]

def days (p : Daily) (n : ℕ) : List Event := (List.range n).flatMap p.day

/-- None of the versions is there yet, and none is going to be locked. -/
structure Start (p : Daily) (s : State) : Prop where
  new : ∀ i, ∀ v ∈ s.versions, v.uid ≠ p.uid i
  unlocked : ∀ i, s.locks.find? (Locking.versionLockName (p.uid i)) = none

section
variable {p : Daily} {s t u : State} {i n : ℕ}

theorem row_eq_row : p.row i = p.row n ↔ i = n :=
  ⟨fun h => p.uid_injective (congrArg VersionRow.uid h), fun h => h ▸ rfl⟩

theorem dayOfRun_backupTime : dayOfRun (p.backupTime i) = dayOfRun p.first + i := by
  unfold backupTime dayOfRun getLocalTime dayOf
  omega

/-- The day on which backup `i` expires. -/
theorem row_expiredAt : ∃ e, (p.row i).expiredAt = some e ∧
    dayOf e = dayOfRun p.first + i + span p.utcoffset (p.backupTime i) := by
  obtain ⟨e, he, hday⟩ := @doCheckGfs_default p.utcoffset (p.backupTime i)
  rw [dayOfRun_backupTime] at hday
  exact ⟨e, he, hday⟩

theorem step_create (h : step s (.create (p.row n)) = some t) :
    t.locks = s.locks ∧ ∀ v, v ∈ t.versions ↔ v = p.row n ∨ v ∈ s.versions := by
  obtain ⟨versions, hinsert, rfl⟩ := Option.map_eq_some_iff.mp h
  obtain ⟨hnone, rfl⟩ := Table.insert?_eq_some.mp hinsert
  refine ⟨rfl, fun v => ?_⟩
  rw [Table.mem_put]
  have hne : v ∈ s.versions → v.uid ≠ (p.row n).uid := Table.find?_eq_none.mp hnone v
  tauto

theorem step_cleanup {me : Process} {faults : Faults} {utcNow : ℤ}
    (h : step s (.deleteExpired me faults utcNow) = some t) :
    t.locks = s.locks ∧ ∀ v, v ∈ t.versions ↔ v ∈ s.versions ∧ ¬ ((∃ e, v.expiredAt = some e ∧
      dayOf e = dayOfRun utcNow) ∧ Removable faults s v) := by
  obtain ⟨u, hu, hspec⟩ := @deleteExpiredVersions_spec me faults utcNow s
  have hstep : step s (.deleteExpired me faults utcNow) = some u := by
    simp only [step, Proc.outcome, show deleteExpiredVersions me faults utcNow s = _ from hu,
      Option.map_some]
  obtain rfl : u = t := Option.some.inj (hstep.symm.trans h)
  exact hspec

/-- After `n` days: what has not expired by the last of them is there. -/
structure After (p : Daily) (n : ℕ) (s : State) : Prop where
  unlocked : ∀ i, s.locks.find? (Locking.versionLockName (p.uid i)) = none
  rows : ∀ i, p.row i ∈ s.versions ↔
    i < n ∧ (n : ℤ) - i ≤ span p.utcoffset (p.backupTime i)

theorem Start.after (h : Start p s) : After p 0 s where
  unlocked := h.unlocked
  rows := by
    intro i
    constructor
    · exact fun hmem => absurd rfl (h.new i _ hmem)
    · exact fun hlt => absurd hlt.1 (Nat.not_lt_zero i)

/-- One more day. -/
theorem After.day (h : After p n s) (hrun : run step s (p.day n) = some t) :
    After p (n + 1) t := by
  obtain ⟨u, hcreate, hrest⟩ := run_cons.mp hrun
  obtain ⟨hlocks, hcreated⟩ := step_create hcreate
  obtain ⟨hlocks', hcleaned⟩ := step_cleanup (run_singleton.mp hrest)
  have hfree : ∀ i, u.locks.find? (Locking.versionLockName (p.uid i)) = none := by
    intro i
    rw [hlocks]
    exact h.unlocked i
  refine ⟨fun i => by rw [hlocks']; exact hfree i, fun i => ?_⟩
  have hremovable : Removable (p.faults n) u (p.row i) := ⟨hfree i, rfl, p.no_fault n _⟩
  obtain ⟨e, he, hday⟩ := @row_expiredAt p i
  have hexpires : (∃ e, (p.row i).expiredAt = some e ∧ dayOf e = dayOfRun (p.cleanup n)) ↔
      (i : ℤ) + span p.utcoffset (p.backupTime i) = n := by
    rw [he, p.same_day n]
    simp only [Option.some.injEq, exists_eq_left']
    omega
  have hspan := @span_bounds p.utcoffset (p.backupTime i)
  rw [hcleaned, hcreated, h.rows, row_eq_row, hexpires, and_iff_left hremovable]
  omega

theorem after_days (hstart : Start p s) (hrun : run step s (p.days n) = some t) :
    After p n t := by
  induction n generalizing t with
  | zero =>
    obtain rfl := run_nil.mp hrun
    exact hstart.after
  | succ n ih =>
    have hsplit : p.days (n + 1) = p.days n ++ p.day n := by
      rw [days, List.range_succ, List.flatMap_append, List.flatMap_singleton, days]
    rw [hsplit] at hrun
    obtain ⟨u, hu, ht⟩ := run_append.mp hrun
    exact (ih hu).day ht

/-- After any number of days, of the daily backups those of the last eight days are there, those
of the Sundays of the last five weeks, and those of the ends of months of the last two months. -/
theorem gfs_coverage (hstart : Start p s) (hrun : run step s (p.days n) = some t) (i : ℕ)
    (hi : i < n) :
    (isMonthEnd p.utcoffset (p.backupTime i) = true → ∃ k, 59 ≤ k ∧ k ≤ 62 ∧
      (p.row i ∈ t.versions ↔ n ≤ i + k)) ∧
    (isMonthEnd p.utcoffset (p.backupTime i) = false →
      isWeekend p.utcoffset (p.backupTime i) = true →
      (p.row i ∈ t.versions ↔ n ≤ i + 35)) ∧
    (isMonthEnd p.utcoffset (p.backupTime i) = false →
      isWeekend p.utcoffset (p.backupTime i) = false →
      (p.row i ∈ t.versions ↔ n ≤ i + 8)) := by
  have hrow := (after_days hstart hrun).rows i
  rw [and_iff_right hi] at hrow
  refine ⟨fun hend => ?_, fun hend hweekend => ?_, fun hend hweekend => ?_⟩
  · obtain ⟨hlow, hhigh⟩ := span_monthEnd hend
    refine ⟨(span p.utcoffset (p.backupTime i)).toNat, by omega, by omega, ?_⟩
    rw [hrow]
    omega
  · rw [hrow, span, if_neg (by simp [hend]), if_pos hweekend]
    omega
  · rw [hrow, span, if_neg (by simp [hend]), if_neg (by simp [hweekend])]
    omega

section Example

/-- From the 27th of January 2024, a Saturday, on. -/
def exampleDaily : Daily where
  utcoffset _ := 7 * 3600
  first := 19749 * 86400
  uid i := String.ofList (List.replicate i 'v')
  me := ⟨"host", "1"⟩
  faults _ := ⟨fun _ => none, fun _ => none⟩
  cleanup i := (19749 + i) * 86400
  uid_injective := by
    intro i j h
    have hlen := congrArg String.length h
    simpa using hlen
  no_fault _ _ := rfl
  same_day i := by
    unfold dayOfRun dayOf getLocalTime
    omega

theorem gfs_coverage_example : ∃ t, run step ⟨.empty, .empty⟩ (exampleDaily.days 20) = some t ∧
    exampleDaily.row 0 ∉ t.versions ∧ exampleDaily.row 1 ∈ t.versions ∧
      exampleDaily.row 4 ∈ t.versions := by
  have hstart : Start exampleDaily ⟨.empty, .empty⟩ := ⟨fun _ _ hv => absurd hv Table.not_mem_empty,
    fun _ => rfl⟩
  obtain ⟨t, ht⟩ := Option.isSome_iff_exists.mp (show (run step ⟨.empty, .empty⟩
    (exampleDaily.days 20)).isSome = true by decide +kernel)
  have hsaturday :=
    (gfs_coverage hstart ht 0 (by decide)).2.2 (by decide +kernel) (by decide +kernel)
  have hsunday := (gfs_coverage hstart ht 1 (by decide)).2.1 (by decide +kernel) (by decide +kernel)
  -- The 31st of January.
  obtain ⟨k, hlow, -, hend⟩ := (gfs_coverage hstart ht 4 (by decide)).1 (by decide +kernel)
  exact ⟨t, ht, fun hmem => absurd (hsaturday.mp hmem) (by decide), hsunday.mpr (by decide),
    hend.mpr (by omega)⟩

end Example

end

end Daily

end Benji.Schedule

import Benji.Lib.Join

/-! `run_schedule_job`: which jobs a tick of the scheduler selects. -/
namespace Benji.Schedule
open Lib

structure ScheduleJob where
  id : ℕ
  startTime : ℤ
  /-- The names of the days with commas in between. -/
  daysOfWeek : String
  deriving DecidableEq, Repr

/-- `calendar.day_name[weekday][0:3].lower()`. -/
def dayOfWeek : ℕ → String
  | 0 => "mon"
  | 1 => "tue"
  | 2 => "wed"
  | 3 => "thu"
  | 4 => "fri"
  | 5 => "sat"
  | 6 => "sun"
  | _ => ""

/-- The names that the API accepts. -/
def dayNames : List String := ["mon", "tue", "wed", "thu", "fri", "sat", "sun"]

/-- The days since 1970-01-01 on a clock that shows `clock` seconds. -/
def dayOf (clock : ℤ) : ℤ := clock / 86400

/-- Monday is 0; 1970-01-01 was a Thursday. -/
def weekdayOf (day : ℤ) : ℕ := ((day + 3) % 7).toNat

/-- `hour * 60 + minute`. -/
def minuteOf (clock : ℤ) : ℤ := clock % 86400 / 3600 * 60 + clock % 3600 / 60

/-- `get_local_time`: Asia/Saigon, seven hours ahead of UTC. -/
def getLocalTime (utcNow : ℤ) : ℤ := utcNow + 7 * 3600

/-- `datetime.today()` takes the time zone of the process: what its clock is ahead of UTC. -/
def today (utcoffset : ℤ → ℤ) (utcNow : ℤ) : ℤ := utcNow + utcoffset utcNow

/-- `LIKE '%part%'`. -/
def like (s part : String) : Bool := part.toList <:+: s.toList

section
variable (utcoffset : ℤ → ℤ) (jobs : List ScheduleJob) (utcNow : ℤ)

def weekday : ℕ := weekdayOf (dayOf (today utcoffset utcNow))

def curHhmm : ℤ := minuteOf (getLocalTime utcNow)

def nextHhmm : ℤ := min (curHhmm utcNow + 10) 1440

def extraTime : ℤ := if 1440 < curHhmm utcNow + 10 then curHhmm utcNow + 10 - 1440 else 0

/-- The first query. -/
def jobsToday : List ScheduleJob :=
  jobs.filter fun job => curHhmm utcNow ≤ job.startTime && job.startTime < nextHhmm utcNow &&
    like job.daysOfWeek (dayOfWeek (weekday utcoffset utcNow))

/-- The day that is taken for the next one. -/
def nextWeekday : ℕ :=
  (if 6 ≤ weekday utcoffset utcNow then 0 else weekday utcoffset utcNow) + 1

/-- The second query, when the window goes past midnight. -/
def jobsTomorrow : List ScheduleJob :=
  if extraTime utcNow ≠ 0 then
    jobs.filter fun job => 0 ≤ job.startTime && job.startTime < extraTime utcNow &&
      like job.daysOfWeek (dayOfWeek (nextWeekday utcoffset utcNow))
  else []

def jobArr : List ScheduleJob :=
  jobsToday utcoffset jobs utcNow ++ jobsTomorrow utcoffset jobs utcNow

end

/-! ### Windows -/

theorem minuteOf_eq (clock : ℤ) : minuteOf clock = clock % 86400 / 60 := by
  rw [minuteOf]
  omega

theorem curHhmm_bounds (utcNow : ℤ) : 0 ≤ curHhmm utcNow ∧ curHhmm utcNow < 1440 := by
  rw [curHhmm, minuteOf_eq]
  omega

/-- The minutes since 1970-01-01 00:00 in Saigon. -/
def minutes (utcNow : ℤ) : ℤ := getLocalTime utcNow / 60

theorem minutes_eq (utcNow : ℤ) :
    minutes utcNow = dayOf (getLocalTime utcNow) * 1440 + curHhmm utcNow := by
  rw [minutes, dayOf, curHhmm, minuteOf_eq]
  omega

theorem minutes_tick (first : ℤ) (i : ℕ) : minutes (first + 600 * i) = minutes first + 10 * i := by
  simp only [minutes, getLocalTime]
  omega

/-- The two windows of a tick are ten minutes together. -/
theorem windows_iff {utcNow day startTime : ℤ} (h : 0 ≤ startTime) (hlt : startTime < 1440) :
    (day = dayOf (getLocalTime utcNow) ∧ curHhmm utcNow ≤ startTime ∧
        startTime < nextHhmm utcNow) ∨
      (day = dayOf (getLocalTime utcNow) + 1 ∧ startTime < extraTime utcNow) ↔
    minutes utcNow ≤ day * 1440 + startTime ∧ day * 1440 + startTime < minutes utcNow + 10 := by
  have hcur := curHhmm_bounds utcNow
  rw [minutes_eq, nextHhmm, extraTime]
  split_ifs <;> omega

/-- Ticks ten minutes apart leave no minute out and take none twice. -/
theorem existsUnique_tick {first m : ℤ} {n : ℕ} (h : minutes first ≤ m)
    (hlt : m < minutes first + 10 * n) :
    ∃ i < n, (minutes (first + 600 * i) ≤ m ∧ m < minutes (first + 600 * i) + 10) ∧
      ∀ j : ℕ, minutes (first + 600 * j) ≤ m → m < minutes (first + 600 * j) + 10 → j = i := by
  refine ⟨((m - minutes first) / 10).toNat, ?_, ?_, ?_⟩
  · omega
  · rw [minutes_tick]
    omega
  · intro j hle hj
    rw [minutes_tick] at hle hj
    omega

/-! ### Days -/

theorem dayOfWeek_mem (i : ℕ) (h : i < 7) : dayOfWeek i ∈ dayNames := by
  match i, h with
  | 0, _ => decide
  | 1, _ => decide
  | 2, _ => decide
  | 3, _ => decide
  | 4, _ => decide
  | 5, _ => decide
  | 6, _ => decide

theorem weekdayOf_lt (day : ℤ) : weekdayOf day < 7 := by
  rw [weekdayOf]
  omega

/-- `LIKE` on the column finds the days that were put in. -/
theorem like_intercalate {days : List String} {day : String} (hdays : ∀ d ∈ days, d ∈ dayNames)
    (hday : day ∈ dayNames) : like (",".intercalate days) day = true ↔ day ∈ days := by
  have hname : ∀ d ∈ dayNames, d.toList.length = 3 ∧ ',' ∉ d.toList := by decide
  have hmem : day.toList ∈ days.map String.toList ↔ day ∈ days := by
    rw [List.mem_map]
    constructor
    · intro ⟨d, hd, he⟩
      rwa [← String.toList_inj.mp he]
    · intro h
      exact ⟨day, h, rfl⟩
  have hlen : ∀ v ∈ days.map String.toList, v.length = 3 := by
    intro v hv
    obtain ⟨d, hd, rfl⟩ := List.mem_map.mp hv
    exact (hname d (hdays d hd)).1
  rw [like, decide_eq_true_eq, String.toList_intercalate, ← hmem]
  exact infix_intercalate (by decide) (hname day hday).2 (hname day hday).1 hlen

/-! ### Occurrences -/

/-- A job as the API stores it for a set of days. -/
structure Accepted (job : ScheduleJob) (days : List String) : Prop where
  start_nonneg : 0 ≤ job.startTime
  start_le : job.startTime ≤ 1440
  days_mem : ∀ d ∈ days, d ∈ dayNames
  column : job.daysOfWeek = ",".intercalate days

/-- The day, in Saigon, is one of the set. -/
def Scheduled (days : List String) (day : ℤ) : Prop := dayOfWeek (weekdayOf day) ∈ days

instance {days : List String} {day : ℤ} : Decidable (Scheduled days day) :=
  inferInstanceAs (Decidable (_ ∈ days))

/-- The occurrence of a day falls inside `n` ticks ten minutes apart. -/
def Inside (first : ℤ) (n : ℕ) (job : ScheduleJob) (day : ℤ) : Prop :=
  minutes first ≤ day * 1440 + job.startTime ∧
    day * 1440 + job.startTime < minutes first + 10 * n

section
variable (utcoffset : ℤ → ℤ) (jobs : List ScheduleJob) (first : ℤ) (n : ℕ) (job : ScheduleJob)
  (days : List String)

/-- A tick selects the job for its own day or for the day after. -/
def Selects (utcNow day : ℤ) : Prop :=
  (job ∈ jobsToday utcoffset jobs utcNow ∧ day = dayOf (getLocalTime utcNow)) ∨
    (job ∈ jobsTomorrow utcoffset jobs utcNow ∧ day = dayOf (getLocalTime utcNow) + 1)

/-- Every occurrence is selected by one tick, and no tick selects the job for another day. -/
structure FiresOnce : Prop where
  once : ∀ day, Scheduled days day → Inside first n job day →
    ∃! i : ℕ, i < n ∧ Selects utcoffset jobs job (first + 600 * i) day
  only : ∀ i < n, ∀ day, Selects utcoffset jobs job (first + 600 * (i : ℕ)) day →
    Scheduled days day

/-- The end of a day is never asked for; otherwise, whether the days that the queries ask for
are in the set must not differ from the days in Saigon. -/
structure DaysAgree : Prop where
  midnight : job.startTime = 1440 → ∀ day, Scheduled days day → ¬ Inside first n job day
  today : ∀ i < n, curHhmm (first + 600 * (i : ℕ)) ≤ job.startTime →
    job.startTime < nextHhmm (first + 600 * (i : ℕ)) →
    (dayOfWeek (weekday utcoffset (first + 600 * (i : ℕ))) ∈ days ↔
      Scheduled days (dayOf (getLocalTime (first + 600 * (i : ℕ)))))
  tomorrow : ∀ i < n, job.startTime < extraTime (first + 600 * (i : ℕ)) →
    (dayOfWeek (nextWeekday utcoffset (first + 600 * (i : ℕ))) ∈ days ↔
      Scheduled days (dayOf (getLocalTime (first + 600 * (i : ℕ))) + 1))

end

section
variable {utcoffset : ℤ → ℤ} {jobs : List ScheduleJob} {first utcNow day : ℤ} {n : ℕ}
  {job : ScheduleJob} {days : List String}

theorem mem_jobArr_iff : job ∈ jobArr utcoffset jobs utcNow ↔
    ∃ day, Selects utcoffset jobs job utcNow day := by
  rw [jobArr, List.mem_append]
  constructor
  · intro h
    cases h with
    | inl h => exact ⟨_, .inl ⟨h, rfl⟩⟩
    | inr h => exact ⟨_, .inr ⟨h, rfl⟩⟩
  · intro ⟨day, h⟩
    cases h with
    | inl h => exact .inl h.1
    | inr h => exact .inr h.1

namespace Accepted

theorem mem_jobsToday (h : Accepted job days) (hjob : job ∈ jobs) :
    job ∈ jobsToday utcoffset jobs utcNow ↔
      curHhmm utcNow ≤ job.startTime ∧ job.startTime < nextHhmm utcNow ∧
        dayOfWeek (weekday utcoffset utcNow) ∈ days := by
  have hlike := like_intercalate h.days_mem
    (dayOfWeek_mem (weekday utcoffset utcNow) (weekdayOf_lt _))
  rw [jobsToday, List.mem_filter, h.column, Bool.and_eq_true, Bool.and_eq_true, hlike,
    decide_eq_true_eq, decide_eq_true_eq, and_assoc]
  exact and_iff_right hjob

theorem mem_jobsTomorrow (h : Accepted job days) (hjob : job ∈ jobs) :
    job ∈ jobsTomorrow utcoffset jobs utcNow ↔
      job.startTime < extraTime utcNow ∧ dayOfWeek (nextWeekday utcoffset utcNow) ∈ days := by
  have hnext : nextWeekday utcoffset utcNow < 7 := by
    have hlt := weekdayOf_lt (dayOf (today utcoffset utcNow))
    rw [nextWeekday]
    split_ifs with hsix
    · omega
    · rw [weekday] at hsix ⊢
      omega
  have hlike := like_intercalate h.days_mem (dayOfWeek_mem _ hnext)
  have hstart := h.start_nonneg
  rw [jobsTomorrow]
  split_ifs with hextra
  · rw [List.mem_filter, h.column, Bool.and_eq_true, Bool.and_eq_true, hlike,
      decide_eq_true_eq, decide_eq_true_eq, and_iff_right hjob, and_iff_right hstart]
  · constructor
    · intro hmem
      exact absurd hmem List.not_mem_nil
    · intro hmem
      have hlt := hmem.1
      omega

/-- What is selected for a day lies in the ten minutes of the tick. -/
theorem window_of_selects (h : Accepted job days) (hjob : job ∈ jobs)
    (hs : Selects utcoffset jobs job utcNow day) :
    job.startTime < 1440 ∧ minutes utcNow ≤ day * 1440 + job.startTime ∧
      day * 1440 + job.startTime < minutes utcNow + 10 := by
  have hcur := curHhmm_bounds utcNow
  cases hs with
  | inl hs =>
    obtain ⟨hle, hlt, -⟩ := (h.mem_jobsToday hjob).mp hs.1
    have hstart : job.startTime < 1440 := by
      rw [nextHhmm] at hlt
      omega
    exact ⟨hstart, (windows_iff h.start_nonneg hstart).mp (.inl ⟨hs.2, hle, hlt⟩)⟩
  | inr hs =>
    obtain ⟨hlt, -⟩ := (h.mem_jobsTomorrow hjob).mp hs.1
    have hstart : job.startTime < 1440 := by
      rw [extraTime] at hlt
      split_ifs at hlt <;> omega
    exact ⟨hstart, (windows_iff h.start_nonneg hstart).mp (.inr ⟨hs.2, hlt⟩)⟩

/-- The windows of a tick lie inside the run. -/
theorem inside_of_window {i : ℕ} (hi : i < n)
    (hle : minutes (first + 600 * i) ≤ day * 1440 + job.startTime)
    (hlt : day * 1440 + job.startTime < minutes (first + 600 * i) + 10) :
    Inside first n job day := by
  rw [minutes_tick] at hle hlt
  constructor <;> omega

theorem daysAgree_of_firesOnce (h : Accepted job days) (hjob : job ∈ jobs)
    (hf : FiresOnce utcoffset jobs first n job days) :
    DaysAgree utcoffset first n job days where
  midnight := by
    intro hstart day hday hinside
    obtain ⟨i, ⟨-, hs⟩, -⟩ := hf.once day hday hinside
    have hlt := (h.window_of_selects hjob hs).1
    omega
  today := by
    intro i hi hle hlt
    have hstart : job.startTime < 1440 := by
      rw [nextHhmm] at hlt
      omega
    constructor
    · intro hname
      exact hf.only i hi _ (.inl ⟨(h.mem_jobsToday hjob).mpr ⟨hle, hlt, hname⟩, rfl⟩)
    · intro hday
      have hw := (windows_iff h.start_nonneg hstart).mp (.inl ⟨rfl, hle, hlt⟩)
      obtain ⟨j, ⟨hj, hs⟩, -⟩ := hf.once _ hday (inside_of_window hi hw.1 hw.2)
      -- Only this tick has the minute in its window.
      have hwj := h.window_of_selects hjob hs
      have hij : j = i := by
        rw [minutes_tick] at hw hwj
        omega
      rw [hij] at hs
      cases hs with
      | inl hs => exact ((h.mem_jobsToday hjob).mp hs.1).2.2
      | inr hs =>
        have hday := hs.2
        omega
  tomorrow := by
    intro i hi hlt
    have hcur := curHhmm_bounds (first + 600 * i)
    have hstart : job.startTime < 1440 := by
      rw [extraTime] at hlt
      split_ifs at hlt <;> omega
    constructor
    · intro hname
      exact hf.only i hi _ (.inr ⟨(h.mem_jobsTomorrow hjob).mpr ⟨hlt, hname⟩, rfl⟩)
    · intro hday
      have hw := (windows_iff h.start_nonneg hstart).mp (.inr ⟨rfl, hlt⟩)
      obtain ⟨j, ⟨hj, hs⟩, -⟩ := hf.once _ hday (inside_of_window hi hw.1 hw.2)
      have hwj := h.window_of_selects hjob hs
      have hij : j = i := by
        rw [minutes_tick] at hw hwj
        omega
      rw [hij] at hs
      cases hs with
      | inl hs =>
        have hday := hs.2
        omega
      | inr hs => exact ((h.mem_jobsTomorrow hjob).mp hs.1).2

theorem firesOnce_of_daysAgree (h : Accepted job days) (hjob : job ∈ jobs)
    (ha : DaysAgree utcoffset first n job days) :
    FiresOnce utcoffset jobs first n job days where
  once := by
    intro day hday hinside
    have hstart : job.startTime < 1440 := by
      have hle := h.start_le
      have hne : job.startTime ≠ 1440 := fun he => ha.midnight he day hday hinside
      omega
    obtain ⟨i, hi, hw, hunique⟩ := existsUnique_tick hinside.1 hinside.2
    have hs : Selects utcoffset jobs job (first + 600 * i) day := by
      cases (windows_iff h.start_nonneg hstart).mpr hw with
      | inl hin =>
        obtain ⟨rfl, hle, hlt⟩ := hin
        have hname := (ha.today i hi hle hlt).mpr hday
        exact .inl ⟨(h.mem_jobsToday hjob).mpr ⟨hle, hlt, hname⟩, rfl⟩
      | inr hin =>
        obtain ⟨rfl, hlt⟩ := hin
        have hname := (ha.tomorrow i hi hlt).mpr hday
        exact .inr ⟨(h.mem_jobsTomorrow hjob).mpr ⟨hlt, hname⟩, rfl⟩
    refine ⟨i, ⟨hi, hs⟩, ?_⟩
    intro j hj
    have hwj := h.window_of_selects hjob hj.2
    exact hunique j hwj.2.1 hwj.2.2
  only := by
    intro i hi day hs
    cases hs with
    | inl hs =>
      obtain ⟨hmem, rfl⟩ := hs
      obtain ⟨hle, hlt, hname⟩ := (h.mem_jobsToday hjob).mp hmem
      exact (ha.today i hi hle hlt).mp hname
    | inr hs =>
      obtain ⟨hmem, rfl⟩ := hs
      obtain ⟨hlt, hname⟩ := (h.mem_jobsTomorrow hjob).mp hmem
      exact (ha.tomorrow i hi hlt).mp hname

end Accepted

/-- A schedule fires as it says exactly where the days of the queries agree with it. -/
theorem firesOnce_iff (h : Accepted job days) (hjob : job ∈ jobs) :
    FiresOnce utcoffset jobs first n job days ↔ DaysAgree utcoffset first n job days :=
  ⟨h.daysAgree_of_firesOnce hjob, h.firesOnce_of_daysAgree hjob⟩

end

/-- Three minutes past midnight on Mondays. -/
def exampleJob : ScheduleJob := ⟨1, 3, "mon"⟩

theorem exampleJob_accepted : Accepted exampleJob ["mon"] where
  start_nonneg := by decide
  start_le := by decide
  days_mem := by decide
  column := by decide

/-- 23:55 in Saigon on the 7th of January 2024, a Sunday. -/
def sundayTick : ℤ := 19729 * 86400 + 60900

/-- A server in UTC, and a tick at the end of a Sunday in Saigon. -/
theorem firesOnce_iff_example :
    FiresOnce (fun _ => 0) [exampleJob] sundayTick 1 exampleJob ["mon"] ↔
      DaysAgree (fun _ => 0) sundayTick 1 exampleJob ["mon"] :=
  firesOnce_iff exampleJob_accepted (List.mem_singleton.mpr rfl)

/-- The day after a Sunday is taken to be a Tuesday, so that the job is not selected on Monday
at three minutes past midnight. -/
theorem monday_after_midnight_missed :
    ¬ ∀ (utcoffset : ℤ → ℤ) (jobs : List ScheduleJob) (first : ℤ) (n : ℕ) (job : ScheduleJob)
      (days : List String), Accepted job days → job ∈ jobs →
      FiresOnce utcoffset jobs first n job days := by
  intro h
  have hf := h (fun _ => 7 * 3600) [exampleJob] sundayTick 1 exampleJob ["mon"] exampleJob_accepted
    (List.mem_singleton.mpr rfl)
  obtain ⟨i, ⟨hi, hs⟩, -⟩ := hf.once 19730 (by decide) ⟨by decide, by decide⟩
  obtain rfl : i = 0 := by omega
  have hnone : jobArr (fun _ => 7 * 3600) [exampleJob] sundayTick = [] := by decide
  have hmem := mem_jobArr_iff.mpr ⟨_, hs⟩
  rw [show sundayTick + 600 * (0 : ℕ) = sundayTick by rfl, hnone] at hmem
  exact absurd hmem List.not_mem_nil

end Benji.Schedule

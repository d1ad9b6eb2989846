import Benji.Lib.Calendar
import Benji.Lib.Group

/-! `RetentionFilter`: which versions a retention policy dismisses. Dates are microseconds in UTC,
and a time zone is its offset at each of them. -/
namespace Benji
open Lib Lib.Calendar

inductive Category where
  | latest
  | hours
  | days
  | weeks
  | months
  | years
  deriving DecidableEq, Repr

def Category.validCategories : List Category := [latest, hours, days, weeks, months, years]

inductive StartOf where
  | hour
  | day
  | week
  | month
  | year

namespace Timedelta

def microsecondsPerHour : ℤ := 3600000000
def microsecondsPerDay : ℤ := 86400000000
def microsecondsPerWeek : ℤ := 604800000000

/-- `_round_down`. -/
def roundDown (t : Calendar.DateTime) : StartOf → Calendar.DateTime
  | .hour => { t with minute := 0, second := 0, microsecond := 0 }
  | .day => { t with hour := 0, minute := 0, second := 0, microsecond := 0 }
  | .week =>
    let t : Calendar.DateTime := { t with hour := 0, minute := 0, second := 0, microsecond := 0 }
    .ofMicroseconds (t.toMicroseconds - t.date.toDays % 7 * microsecondsPerDay)
  | .month => { t with
      date := { t.date with day := 1 }, hour := 0, minute := 0, second := 0, microsecond := 0 }
  | .year => { t with
      date := { t.date with month := 1, day := 1 }
      hour := 0, minute := 0, second := 0, microsecond := 0 }

end Timedelta

/-- `dateutil.relativedelta` of two times, normalized: its years and its months. From the start of
one month or year to that of another these are whole months and years. -/
structure Relativedelta where
  years : Calendar.DateTime → Calendar.DateTime → ℤ
  months : Calendar.DateTime → Calendar.DateTime → ℤ
  months_roundDown : ∀ a b,
    years (Timedelta.roundDown a .month) (Timedelta.roundDown b .month) * 12 +
      months (Timedelta.roundDown a .month) (Timedelta.roundDown b .month) =
        a.date.months - b.date.months
  years_roundDown : ∀ a b, years (Timedelta.roundDown a .year) (Timedelta.roundDown b .year) =
    a.date.year - b.date.year

structure Timedelta where
  hours : ℤ
  days : ℤ
  weeks : ℤ
  months : ℤ
  years : ℤ
  deriving DecidableEq, Repr

namespace Timedelta

/-- `_Timedelta`; `none` is the `ValueError` for a time after the reference time. -/
def init (relativedelta : Relativedelta) (t referenceTime : ℤ) (utcOffset : ℤ → ℤ) :
    Option Timedelta :=
  if referenceTime - t < 0 then none
  else
    let t := Calendar.DateTime.ofMicroseconds (t + utcOffset t)
    let referenceTime := Calendar.DateTime.ofMicroseconds (referenceTime + utcOffset referenceTime)
    -- two times in one time zone are subtracted as they are on the clock
    let delta (startOf : StartOf) : ℤ :=
      (roundDown referenceTime startOf).toMicroseconds - (roundDown t startOf).toMicroseconds
    let (month, month') := (roundDown referenceTime .month, roundDown t .month)
    some {
      hours := delta .hour / microsecondsPerHour
      days := delta .day / microsecondsPerDay
      weeks := delta .week / microsecondsPerWeek
      months := relativedelta.years month month' * 12 + relativedelta.months month month'
      years := relativedelta.years (roundDown referenceTime .year) (roundDown t .year) }

/-- `getattr(td, category)`. -/
def get (td : Timedelta) : Category → ℤ
  | .latest => 0
  | .hours => td.hours
  | .days => td.days
  | .weeks => td.weeks
  | .months => td.months
  | .years => td.years

end Timedelta

/-- The rules are in the order of the valid categories, so a limit for each is all of them. -/
structure RetentionFilter where
  rules : Category → Option ℕ
  positive : ∀ category n, rules category = some n → 0 < n
  referenceTime : ℤ
  utcOffset : ℤ → ℤ
  relativedelta : Relativedelta

namespace RetentionFilter

/-- The categories of the rules, without `latest`. -/
def categories (F : RetentionFilter) : List Category :=
  Category.validCategories.filter fun c => (F.rules c).isSome ∧ c ≠ .latest

/-- What becomes of a version that is not one of the latest. -/
inductive Place where
  | future
  | bucket (category : Category) (timecount : ℤ)
  | tooOld
  deriving DecidableEq, Repr

/-- The inner loop, which ends at the first category that matches. -/
def place (F : RetentionFilter) (date : ℤ) : Place :=
  match Timedelta.init F.relativedelta date F.referenceTime F.utcOffset with
  | none => .future
  | some td =>
    match F.categories.find? fun c => td.get c ≤ ((F.rules c).getD 0 : ℕ) with
    | some c => .bucket c (td.get c)
    | none => .tooOld

section
variable {α : Type} (F : RetentionFilter) (date : α → ℤ)

structure Sorting (α : Type) where
  versionsByCategory : Category → List (ℤ × List α) := fun _ => []
  dismissedVersions : List α := []

/-- The body of the loop over the versions. -/
def sortIn (s : Sorting α) (version : α) : Sorting α :=
  match F.place (date version) with
  | .future => s
  | .bucket c n => { s with
      versionsByCategory := Function.update s.versionsByCategory c
        (appendAt n version (s.versionsByCategory c)) }
  | .tooOld => { s with dismissedVersions := s.dismissedVersions ++ [version] }

/-- From youngest to oldest; `sort` with `reverse` keeps the order of equal dates. -/
def sorted (versions : List α) : List α :=
  versions.insertionSort fun a b => date b ≤ date a

def latestCount : ℕ := (F.rules .latest).getD 0

def latest (versions : List α) : List α := (sorted date versions).take F.latestCount

def rest (versions : List α) : List α := (sorted date versions).drop F.latestCount

def sortVersions (versions : List α) : Sorting α :=
  (F.rest date versions).foldl (F.sortIn date) {}

/-- The versions dismissed, and for each category those that remain. -/
def filterVersions (versions : List α) : List α × (Category → List (ℤ × List α)) :=
  let s := F.sortVersions date versions
  (s.dismissedVersions ++ F.categories.flatMap fun c =>
      (s.versionsByCategory c).flatMap fun p => p.2.dropLast,
    fun c => if c = .latest then
        if (F.rules .latest).isSome then [(0, F.latest date versions)] else []
      else if c ∈ F.categories then
        (s.versionsByCategory c).map fun p => (p.1, p.2.drop (p.2.length - 1))
      else [])

def filter (versions : List α) : List α := (F.filterVersions date versions).1

end

end RetentionFilter

end Benji

import Almanac.Calendar.Month
import Almanac.Calendar.Weekday

/-!
Dates of a bounded calendar: from the first of January of the year -262143 to the last of December
of the year 262142. An operation that would leave it has no result.
-/

namespace Almanac.Calendar

/-- The first day of the calendar, the first of January of the year -262143. -/
def firstDay : Int := -96465292

/-- The last day of the calendar, the last of December of the year 262142. -/
def lastDay : Int := 95026236

/-- A date, as a day within the calendar. -/
structure Date where
  day : Int
  firstDay_le : firstDay ≤ day
  le_lastDay : day ≤ lastDay
  deriving DecidableEq

namespace Date

/-- The date of a day, if the calendar has it. -/
def ofDay? (day : Int) : Option Date :=
  if h : firstDay ≤ day ∧ day ≤ lastDay then some ⟨day, h.1, h.2⟩ else none

/-- The date with these numbers; none if the month or the day does not exist. -/
def ofNumbers? (year : Int) (month day : Nat) : Option Date :=
  let index := 12 * year + (month - 1)
  if 1 ≤ month ∧ month ≤ 12 ∧ 1 ≤ day ∧ (day : Int) ≤ monthLength index then
    ofDay? (monthStart index + day - 1)
  else none

def year (d : Date) : Int :=
  yearOf d.day

/-- The month, counted through the years. -/
def monthIndex (d : Date) : Int :=
  monthOf d.day

def month (d : Date) : Nat :=
  (monthOf d.day % 12).toNat + 1

def dayOfMonth (d : Date) : Nat :=
  (Calendar.dayOfMonth d.day).toNat

def dayOfYear (d : Date) : Nat :=
  (Calendar.dayOfYear d.day).toNat

def week (d : Date) : Nat :=
  (isoWeek d.day).toNat

def weekday (d : Date) : Weekday :=
  Weekday.ofNumber (weekdayNumber d.day)

def addDays? (d : Date) (days : Int) : Option Date :=
  ofDay? (d.day + days)

/-- The date that many months later, on the last day of a month that is too short. -/
def addMonths? (d : Date) (months : Nat) : Option Date :=
  ofDay? (shiftMonths d.day months)

/-- The date with that number within a year. -/
def ofDayOfYear? (year : Int) (number : Nat) : Option Date :=
  if 1 ≤ number ∧ (number : Int) ≤ yearStart (year + 1) - yearStart year then
    ofDay? (yearStart year + number - 1)
  else none

end Date

end Almanac.Calendar

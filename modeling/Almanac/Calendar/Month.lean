/-!
The proleptic Gregorian calendar on plain integers. A day is the number of days since
1970-01-01, and a month is counted through the years as twelve times the year plus the months
before it in that year, so both lines run on without a gap.
-/

namespace Almanac.Calendar

/-- Whether the year has a 29th of February. -/
def isLeap (year : Int) : Bool :=
  year % 4 = 0 && (year % 100 ≠ 0 || year % 400 = 0)

/-- The first of January of a year, as a day. -/
def yearStart (year : Int) : Int :=
  365 * (year - 1) + (year - 1) / 4 - (year - 1) / 100 + (year - 1) / 400 - 719162

/-- The number of days before a month of the year; January is month 0. -/
def daysBefore (leap : Bool) (month : Int) : Int :=
  let extra := if leap then 1 else 0
  if month ≤ 0 then 0
  else if month = 1 then 31
  else if month = 2 then 59 + extra
  else if month = 3 then 90 + extra
  else if month = 4 then 120 + extra
  else if month = 5 then 151 + extra
  else if month = 6 then 181 + extra
  else if month = 7 then 212 + extra
  else if month = 8 then 243 + extra
  else if month = 9 then 273 + extra
  else if month = 10 then 304 + extra
  else if month = 11 then 334 + extra
  else 365 + extra

def monthStart (month : Int) : Int :=
  yearStart (month / 12) + daysBefore (isLeap (month / 12)) (month % 12)

def monthLength (month : Int) : Int :=
  monthStart (month + 1) - monthStart month

/-- The year of a day: the mean year length gives a year that is at most one off. -/
def yearOf (day : Int) : Int :=
  let guess := 400 * (day + 719162) / 146097 + 1
  if day < yearStart guess then guess - 1
  else if yearStart (guess + 1) ≤ day then guess + 1
  else guess

/-- The last month up to `latest`, counted from January as 0, that has begun after `offset` days
of the year. -/
def monthWithin (leap : Bool) (offset : Int) : Nat → Nat
  | 0 => 0
  | latest + 1 =>
    if daysBefore leap (latest + 1) ≤ offset then latest + 1 else monthWithin leap offset latest

def monthOf (day : Int) : Int :=
  let year := yearOf day
  12 * year + monthWithin (isLeap year) (day - yearStart year) 11

def dayOfMonth (day : Int) : Int :=
  day - monthStart (monthOf day) + 1

def dayOfYear (day : Int) : Int :=
  day - yearStart (yearOf day) + 1

/-- The day that many months later with the same day of the month, or the last day of that month
if it is shorter. -/
def shiftMonths (day months : Int) : Int :=
  let month := monthOf day + months
  monthStart month + min (dayOfMonth day) (monthLength month) - 1

/-- The days since the last Monday, from 0. The first of January 1970 is a Thursday. -/
def weekdayNumber (day : Int) : Int :=
  (day + 3) % 7

/-- The ISO week of the year: that of the Thursday of the same week. -/
def isoWeek (day : Int) : Int :=
  let thursday := day - weekdayNumber day + 3
  (dayOfYear thursday - 1) / 7 + 1

end Almanac.Calendar

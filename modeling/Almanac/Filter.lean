import Almanac.Calendar.Instant
import Almanac.Text.Numeral

/-!
Filters on the calendar components of an instant. A field without values admits every instant.
-/

namespace Almanac

open Calendar

/-- The values that each component may have. Weeks are ISO weeks. -/
structure Filter where
  minutes : SortedSet Nat := ∅
  hours : SortedSet Nat := ∅
  days : SortedSet Nat := ∅
  weeks : SortedSet Nat := ∅
  months : SortedSet Nat := ∅
  weekdays : SortedSet Weekday := ∅
  yearDays : SortedSet Nat := ∅

/-- Whether a set of values admits a value: the empty set admits all. -/
def SortedSet.admits {α : Type} [Ranked α] (s : SortedSet α) (a : α) : Bool :=
  s.isEmpty || s.contains a

namespace Filter

/-- Whether every field admits its component of an instant. -/
def admits (f : Filter) (i : Instant) : Bool :=
  f.minutes.admits i.timeOfDay.minute && f.hours.admits i.timeOfDay.hour &&
    f.days.admits i.date.dayOfMonth && f.weeks.admits i.date.week &&
    f.months.admits i.date.month && f.weekdays.admits i.date.weekday &&
    f.yearDays.admits i.date.dayOfYear

/-- The filter with the values of both, field by field. -/
def union (f g : Filter) : Filter where
  minutes := f.minutes.union g.minutes
  hours := f.hours.union g.hours
  days := f.days.union g.days
  weeks := f.weeks.union g.weeks
  months := f.months.union g.months
  weekdays := f.weekdays.union g.weekdays
  yearDays := f.yearDays.union g.yearDays

def isEmpty (f : Filter) : Bool :=
  f.minutes.isEmpty && f.hours.isEmpty && f.days.isEmpty && f.weeks.isEmpty &&
    f.months.isEmpty && f.weekdays.isEmpty && f.yearDays.isEmpty

/-- The fields that have values, each with its values separated by semicolons. -/
def fieldTexts (f : Filter) : List (String × List String) :=
  [("minutes", f.minutes.toList.map Text.natural),
    ("hours", f.hours.toList.map Text.natural),
    ("days", f.days.toList.map Text.natural),
    ("weeks", f.weeks.toList.map Text.natural),
    ("months", f.months.toList.map Text.natural),
    ("day_names", f.weekdays.toList.map Weekday.name),
    ("day_numbers", f.yearDays.toList.map Text.natural)].filter fun field => !field.2.isEmpty

def callText (f : Filter) : String :=
  let fields := f.fieldTexts.map fun field => field.1 ++ ": " ++ ";".intercalate field.2
  "filter(" ++ ", ".intercalate fields ++ ")"

def text (f : Filter) : String :=
  "[" ++ f.callText ++ "]"

end Filter

end Almanac

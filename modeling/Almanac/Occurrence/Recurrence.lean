import Almanac.Calendar.Text
import Almanac.Filter
import Almanac.Period.Interval

/-!
Events: when they start, when they stop and how often they recur, and the filters that hold
occurrences back.
-/

namespace Almanac.Occurrence

open Calendar Period

inductive Bound where
  | moment (i : Instant)
  | forever
  deriving DecidableEq

/-- A start, optionally an end, and the intervals of the recurrence if there is one. -/
structure Recurrence where
  start : Instant
  stop : Option Bound := none
  every : Option (List Interval) := none

/-- A recurrence with filters, all of which an admitted occurrence passes. -/
structure Filtered where
  recurrence : Recurrence
  filters : List Filter := []

namespace Bound

def instant? : Bound → Option Instant
  | moment i => some i
  | forever => none

end Bound

def momentText (i : Instant) : String :=
  "datetime(" ++ i.offsetText ++ ")"

def Bound.text : Bound → String
  | moment i => momentText i
  | forever => "forever()"

def argumentText (name : String) : Option String → String
  | some value => ", " ++ name ++ ": " ++ value
  | none => ""

namespace Recurrence

def once (start : Instant) : Recurrence where
  start := start

/-- The same start and end, recurring on these intervals. -/
def withEvery (r : Recurrence) (every : List Interval) : Recurrence :=
  { r with every := some every }

def stopInstant? (r : Recurrence) : Option Instant :=
  r.stop.bind Bound.instant?

def text (r : Recurrence) : String :=
  "repeat(start: " ++ momentText r.start ++ argumentText "end" (r.stop.map Bound.text) ++
    argumentText "every" (r.every.map Interval.listText) ++ ")"

end Recurrence

namespace Filtered

def withFilter (s : Filtered) (f : Filter) : Filtered :=
  { s with filters := s.filters ++ [f] }

def text (s : Filtered) : String :=
  s.recurrence.text ++ String.join (s.filters.map Filter.text)

/-- Alternatives, separated by bars. -/
def listText (members : List Filtered) : String :=
  " | ".intercalate (members.map text)

end Filtered

end Almanac.Occurrence

import Almanac.Binary64.Basic
import Almanac.Literal.Basic
import Almanac.Occurrence.Recurrence

/-!
Sections: the values that a time expression is made of. Some say when something happens, some are
shorthand for those, and some only make sense as arguments of others.
-/

namespace Almanac

open Calendar Period Occurrence

/-- A literal as it is written, and what it stands for. -/
structure WrittenLiteral where
  written : String
  value : Literal.Value

def WrittenLiteral.kind (l : WrittenLiteral) : Literal.Kind :=
  l.value.kind

/-- A time expression, or a part of one, after its arguments have been checked. -/
inductive Section where
  | moment (i : Instant)
  | recurrence (r : Recurrence)
  | filter (f : Filter)
  | filtered (s : Filtered)
  /-- Alternatives: an occurrence of any member is an occurrence of the group. -/
  | group (members : List Filtered)
  | intervals (alternatives : List Interval)
  | interval (i : Interval)
  | amount (a : Amount)
  /-- An amount to be drawn from `low` up to and without `high`. -/
  | range (low high : Amount)
  | duration (d : Duration)
  /-- The moment that the clock shows. -/
  | now
  /-- Seconds since 1970-01-01. -/
  | epoch (seconds : Binary64)
  | sunrise
  | sunset
  | forever
  | weekdays (days : SortedSet Weekday)
  | yearDay (number : Nat)
  | time (c : ClockTime)
  | date (d : Date)
  | between (start : Instant) (stop : Option Bound)
  | literal (l : WrittenLiteral)

namespace Section

inductive Kind where
  | moment
  | recurrence
  | filter
  | filtered
  | group
  | intervals
  | interval
  | amount
  | range
  | duration
  | now
  | epoch
  | sunrise
  | sunset
  | forever
  | weekdays
  | yearDay
  | time
  | date
  | between
  | literal
  deriving DecidableEq, Repr

def kind : Section → Kind
  | moment _ => .moment
  | recurrence _ => .recurrence
  | filter _ => .filter
  | filtered _ => .filtered
  | group _ => .group
  | intervals _ => .intervals
  | interval _ => .interval
  | amount _ => .amount
  | range _ _ => .range
  | duration _ => .duration
  | now => .now
  | epoch _ => .epoch
  | sunrise => .sunrise
  | sunset => .sunset
  | forever => .forever
  | weekdays _ => .weekdays
  | yearDay _ => .yearDay
  | time _ => .time
  | date _ => .date
  | between _ _ => .between
  | literal _ => .literal

def Kind.name : Kind → String
  | .moment => "DateTime"
  | .recurrence => "Repeat"
  | .filter => "Filter"
  | .filtered => "RepeatAndFilters"
  | .group => "ManyRepeatAndFilters"
  | .intervals => "Intervals"
  | .interval => "Interval"
  | .amount => "Amount"
  | .range => "Range"
  | .duration => "Duration"
  | .now => "Now"
  | .epoch => "Epoch"
  | .sunrise => "SunRise"
  | .sunset => "SunSet"
  | .forever => "Forever"
  | .weekdays => "DayName"
  | .yearDay => "DayNumber"
  | .time => "Time"
  | .date => "Date"
  | .between => "Between"
  | .literal => "Iso8601"

end Section

end Almanac

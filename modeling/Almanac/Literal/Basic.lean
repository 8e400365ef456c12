import Almanac.Calendar.Instant
import Almanac.Period.Duration

/-!
ISO 8601 literals: what they say, and what may be wrong with one.
-/

namespace Almanac.Literal

open Calendar Period

inductive Kind where
  | dateTime
  | date
  | time
  | duration
  | repeatingInterval
  deriving DecidableEq, Repr

namespace Kind

def all : List Kind :=
  [dateTime, date, time, duration, repeatingInterval]

def name : Kind → String
  | dateTime => "datetime"
  | date => "date"
  | time => "time"
  | duration => "duration"
  | repeatingInterval => "repeating_interval"

def names : List String :=
  all.map name

def ofName? (text : String) : Option Kind :=
  all.find? (·.name = text)

theorem ofName?_name (kind : Kind) : ofName? kind.name = some kind := by
  cases kind <;> decide

end Kind

/-- A duration that recurs from a start, a given number of times or without end. -/
structure Repetition where
  count : Option Nat
  start : Instant
  duration : Duration
  deriving DecidableEq

inductive Value where
  | dateTime (i : Instant)
  | date (d : Date)
  | time (t : TimeOfDay)
  | duration (d : Duration)
  | repeatingInterval (r : Repetition)
  deriving DecidableEq

def Value.kind : Value → Kind
  | .dateTime _ => .dateTime
  | .date _ => .date
  | .time _ => .time
  | .duration _ => .duration
  | .repeatingInterval _ => .repeatingInterval

inductive Fault where
  | notDateTime
  | notDate
  | notTime
  | durationMarkMissing
  | designatorBeforeTime (c : Char)
  | designatorAfterTime (c : Char)
  | timeEmpty
  | componentMissing
  | numberMissing (c : Char)
  | numberTooLarge (digits : String)
  | designatorMissing (digits : String)
  | repetitionMarkMissing
  | notCount (text : String)
  | notThreeParts
  | endOutOfRange

def Fault.message : Fault → String
  | .notDateTime => "expected a datetime like 2020-01-31T10:30:00"
  | .notDate => "expected a date like 2020-01-31"
  | .notTime => "expected a time like 10:30:00"
  | .durationMarkMissing => "a duration starts with 'P'"
  | .designatorBeforeTime c => "unexpected designator '" ++ c.toString ++ "' before 'T'"
  | .designatorAfterTime c => "unexpected designator '" ++ c.toString ++ "' after 'T'"
  | .timeEmpty => "'T' must be followed by hours, minutes or seconds"
  | .componentMissing => "a duration needs at least one component"
  | .numberMissing c => "expected a number before '" ++ c.toString ++ "'"
  | .numberTooLarge digits => "'" ++ digits ++ "' is too large"
  | .designatorMissing digits => "'" ++ digits ++ "' has no designator"
  | .repetitionMarkMissing => "a repeating interval starts with 'R'"
  | .notCount text => "'" ++ text ++ "' is not a repetition count"
  | .notThreeParts => "expected R[n]/<start>/<duration>"
  | .endOutOfRange => "the last repetition is out of range"

end Almanac.Literal

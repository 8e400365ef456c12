import Almanac.Section.Basic

/-!
What a section tells about an event. A complete expression tells when something happens once or
again and again.
-/

namespace Almanac

open Occurrence

inductive Capability where
  | once
  | recurrence
  | duration
  | filter
  | interval
  | day
  | time
  deriving DecidableEq, Repr

def Capability.name : Capability → String
  | .once => "once"
  | .recurrence => "repeat"
  | .duration => "duration"
  | .filter => "filter"
  | .interval => "interval"
  | .day => "day"
  | .time => "time"

/-- What a recurrence tells: without intervals and without an end it happens once. -/
def Occurrence.Recurrence.specifies (r : Recurrence) : List Capability :=
  match r.every, r.stop with
  | some _, some _ => [.recurrence, .duration]
  | some _, none => [.recurrence]
  | none, some _ => [.duration]
  | none, none => [.once]

def Literal.Kind.specifies : Literal.Kind → List Capability
  | .repeatingInterval => [.interval]
  | .dateTime => [.day, .time]
  | .date => [.day]
  | .time => [.time]
  | .duration => [.duration]

namespace Section

def specifies : Section → List Capability
  | moment _ => [.once]
  | recurrence r => r.specifies
  | filter _ => [.filter]
  | filtered _ => [.recurrence, .filter]
  | group _ => [.recurrence, .filter]
  | intervals _ => [.interval]
  | interval _ => [.interval]
  | range _ _ => [.interval]
  | amount _ => []
  | duration _ => [.duration]
  | forever => [.duration]
  | between _ _ => [.duration]
  | now => [.day, .time]
  | epoch _ => [.day, .time]
  | sunrise => [.day, .time]
  | sunset => [.time]
  | time _ => [.time]
  | weekdays _ => [.day]
  | yearDay _ => [.day]
  | date _ => [.day]
  | literal l => l.kind.specifies

/-- Whether a section only makes sense as an argument of another. -/
def isParameterOnly : Section → Bool
  | amount _ => true
  | range _ _ => true
  | duration _ => true
  | _ => false

/-- Whether a section tells when something happens. -/
def tellsWhen (s : Section) : Bool :=
  s.specifies.contains .once || s.specifies.contains .recurrence

end Section

end Almanac

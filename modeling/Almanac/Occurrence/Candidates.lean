import Almanac.Period.Interval
import Almanac.Period.Range

/-!
The candidate occurrences of one interval: the instants that one or more steps from a start lead
to, from the first one after a given time on, and before a limit. They are asked for one by one.
-/

namespace Almanac.Occurrence

open Calendar Period

/-- From an index back to the first whose predecessor is not after `time`; never below 1. -/
def stepBack (step : Step) (start time : Instant) : Nat → Nat
  | 0 => 1
  | 1 => 1
  | index + 2 =>
    match step.nth? start ((index + 1 : Nat) : Int) with
    | some reached => if time < reached then stepBack step start time (index + 1) else index + 2
    | none => index + 2

/-- From an index on to the first whose instant is after `time`; none if the calendar ends
before. The calendar is finite, so the search ends. -/
def stepForward? (step : Step) (start time : Instant) (forward : step.isZero = false)
    (index : Nat) : Option Nat :=
  match h : step.nth? start index with
  | some reached =>
    if reached ≤ time then stepForward? step start time forward (index + 1) else some index
  | none => none
termination_by maxCount - index
decreasing_by
  have := count_lt_of_nth?_eq_some forward h
  omega

/-- Candidates that are still to come: the index of the next one, none if there is none. -/
structure Candidates where
  step : Step
  start : Instant
  stop : Option Instant
  index : Option Nat

namespace Candidates

/-- The candidates of a step after `time`. A step that does not lead forward has none. -/
def ofStep (step : Step) (start time : Instant) (stop : Option Instant) : Candidates where
  step := step
  start := start
  stop := stop
  index :=
    if h : step.isZero = false then
      stepForward? step start time h (stepBack step start time (step.estimate start time))
    else none

def ofInterval (interval : Interval) (start time : Instant) (stop : Option Instant) :
    Candidates :=
  ofStep interval.step start time stop

def isBefore (stop : Option Instant) (i : Instant) : Bool :=
  stop.all (i < ·)

/-- The next candidate, and those after it. -/
def next? (c : Candidates) : Option (Instant × Candidates) :=
  c.index.bind fun index =>
    ((c.step.nth? c.start index).filter (isBefore c.stop)).map fun reached =>
      (reached, { c with index := some (index + 1) })

/-- The answers to asking for the next candidate a number of times. -/
def ask : Nat → Candidates → List (Option Instant)
  | 0, _ => []
  | times + 1, c =>
    match c.next? with
    | some (reached, rest) => some reached :: ask times rest
    | none => none :: ask times c

end Candidates

end Almanac.Occurrence

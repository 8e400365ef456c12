import Almanac.Calendar.Instant
import Almanac.Text.Numeral

/-!
A step through the calendar: some whole months and then some seconds. Every amount and every
duration comes down to a step. How far a number of steps leads is counted in words of 64 bits.
-/

namespace Almanac.Period

open Calendar

/-- The greatest number of months that a step holds, and the most that a move adds at once. -/
def maxStepMonths : Nat := 4294967295

/-- The most seconds that a move adds or takes away at once. -/
def maxMoveSeconds : Nat := 9223372036854775

/-- The product of two numbers, if a signed word of 64 bits holds it. -/
def product64? (a b : Int) : Option Int :=
  if Text.IsWord64 (a * b) then some (a * b) else none

/-- Some months, added first, and some seconds. -/
structure Step where
  months : Nat
  seconds : Int
  deriving DecidableEq

namespace Step

/-- Whether the step does not lead forward. -/
def isZero (s : Step) : Bool :=
  s.months = 0 && s.seconds ≤ 0

/-- The months of `count` steps together, as far as a move can add them. -/
def monthsOf? (s : Step) (count : Int) : Option Nat :=
  (product64? count s.months).bind fun months =>
    if 0 ≤ months ∧ months ≤ maxStepMonths then some months.toNat else none

/-- The seconds of `count` steps together, as far as a move can add them. -/
def secondsOf? (s : Step) (count : Int) : Option Int :=
  (product64? count s.seconds).filter (·.natAbs ≤ maxMoveSeconds)

/-- The instant `count` steps after `start`: all months are added at once, so that a short month
on the way does not shorten the rest. None if the calendar ends before. -/
@[irreducible]
def nth? (s : Step) (start : Instant) (count : Int) : Option Instant :=
  (s.monthsOf? count).bind fun months =>
    (start.addMonths? months).bind fun shifted =>
      (s.secondsOf? count).bind shifted.addSeconds?

/-- About how many steps lead from `start` to the last one not after `time`: exact for a step
without months; otherwise the steps that the difference of the months alone has room for. -/
def estimate (s : Step) (start time : Instant) : Nat :=
  if time ≤ start then 0
  else if s.months = 0 then
    if s.seconds ≤ 0 then 0 else ((time.secondsSince start).tdiv s.seconds).toNat
  else (time.monthsSince start / s.months).toNat

end Step

end Almanac.Period

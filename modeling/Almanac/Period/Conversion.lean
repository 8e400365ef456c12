import Almanac.Binary64.Value
import Almanac.Period.Amount

/-!
Amounts in terms of another unit, measured from a reference instant. The result may be a fraction:
three seconds are 0.05 minutes. It is a floating point number, and so is every step on the way to
it.
-/

namespace Almanac.Period

open Binary64 Calendar

/-- The end of the last whole unit is not after `limit`: the greatest index up to `index` with
that property, or zero. -/
def lastNotAfter (base : Nat → Option Instant) (limit : Instant) : Nat → Nat
  | 0 => 0
  | index + 1 =>
    match base (index + 1) with
    | some reached => if reached ≤ limit then index + 1 else lastNotAfter base limit index
    | none => lastNotAfter base limit index

/-- From `index` on, the greatest index before the first whose instant is missing or after
`limit`; at most `fuel` further ones are looked at. -/
def extendNotAfter (base : Nat → Option Instant) (limit : Instant) : Nat → Nat → Nat
  | 0, index => index
  | fuel + 1, index =>
    match base (index + 1) with
    | some reached => if reached ≤ limit then extendNotAfter base limit fuel (index + 1) else index
    | none => index

/-- The instant that many units of whole months later. -/
def unitsLater? (start : Instant) (unitMonths : Nat) (count : Nat) : Option Instant :=
  start.addMonths? (count * unitMonths)

/-- The calendar spans this many months. -/
def calendarMonths : Nat := 12 * 524286

/-- How many whole units of `unitMonths` months fit between two instants. The difference of the
months is a first guess, corrected downward and then upward. -/
def wholeUnits (unitMonths : Nat) (start stop : Instant) : Nat :=
  let guess := (stop.monthsSince start / unitMonths).toNat
  extendNotAfter (unitsLater? start unitMonths) stop (calendarMonths + 1)
    (lastNotAfter (unitsLater? start unitMonths) stop guess)

/-- Seconds between two instants, to the millisecond. -/
def secondsBetween (start stop : Instant) : Rat :=
  rounded (rounded (stop.millisecondsSince start) / 1000)

/-- Whole units of months between two instants, and the part of the next unit that remains. -/
def unitsBetween (unitMonths : Nat) (start stop : Instant) : Rat :=
  let count := wholeUnits unitMonths start stop
  match unitsLater? start unitMonths count, unitsLater? start unitMonths (count + 1) with
  | some lower, some upper =>
    let span := secondsBetween lower upper
    if span ≤ 0 then count else rounded (count + rounded (secondsBetween lower stop / span))
  | _, _ => count

/-- A number of one unit in terms of another; beyond the end of the calendar the end counts. -/
def convertNatural (reference : Instant) (source target : TimeUnit) (number : Nat) : Rat :=
  if source = target then rounded number
  else
    let stop := ((Step.ofUnits source number).nth? reference 1).getD Instant.latest
    match target.length with
    | .seconds count => rounded (secondsBetween reference stop / count)
    | .months count => unitsBetween count reference stop

/-- A number of one unit in terms of another. A negative number counts as its magnitude does,
which is at most the greatest that a signed word of 64 bits holds. -/
def convert (reference : Instant) (source target : TimeUnit) (number : Int) : Float :=
  if number < 0 then
    let size := convertNatural reference source target (min number.natAbs maxStepSeconds)
    (ofRat size).negate.toFloat
  else (ofRat (convertNatural reference source target number.toNat)).toFloat

end Almanac.Period

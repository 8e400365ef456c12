import Almanac.Binary64.Basic
import Almanac.Calendar.Instant

/-!
Moments given as a floating point number of seconds since 1970-01-01.
-/

namespace Almanac

open Calendar

/-- A float without a fraction as a whole number, at most what a signed word of 64 bits holds. -/
def wholeSeconds (seconds : Float) : Int :=
  seconds.toInt64.toInt

/-- The moment that many seconds after 1970-01-01, to the nearest nanosecond of its second. -/
def epochInstant? (seconds : Binary64) : Option Instant :=
  if seconds.isFinite then
    let whole := seconds.toFloat.floor
    let nanos := ((seconds.toFloat - whole) * 1000000000.0).round.toUInt32.toNat
    Instant.ofSecond? (wholeSeconds whole) (min nanos 999999999)
  else none

end Almanac

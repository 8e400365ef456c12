import Almanac.Calendar.Instant
import Almanac.Text.Numeral

/-!
How dates, times and instants are written. A year from 0 to 9999 has four digits, any other a sign
and at least four; a fraction of a second has 0, 3, 6 or 9 digits, the fewest that lose nothing.
-/

namespace Almanac.Calendar

open Text (paddedDigits)

def yearText (year : Int) : List Char :=
  if 0 ≤ year ∧ year ≤ 9999 then paddedDigits 4 year.toNat
  else (if year < 0 then '-' else '+') :: paddedDigits 4 year.natAbs

/-- A fraction of a second with its point. -/
def fractionText (nano : Nat) : List Char :=
  if nano = 0 then []
  else if nano % 1000000 = 0 then '.' :: paddedDigits 3 (nano / 1000000)
  else if nano % 1000 = 0 then '.' :: paddedDigits 6 (nano / 1000)
  else '.' :: paddedDigits 9 nano

/-- A date as `year-month-day`. -/
def Date.text (d : Date) : String :=
  String.ofList
    (yearText d.year ++ '-' :: paddedDigits 2 d.month ++ '-' :: paddedDigits 2 d.dayOfMonth)

/-- A time of day as `hour:minute:second`; a leap second is second 60. -/
def TimeOfDay.text (t : TimeOfDay) : String :=
  let leap := t.nano / 1000000000
  String.ofList
    (paddedDigits 2 t.hour ++ ':' :: paddedDigits 2 t.minute ++
      ':' :: paddedDigits 2 (t.secondOfMinute + leap) ++ fractionText (t.nano % 1000000000))

/-- Date and time of day, without a mark for the zone. -/
def Instant.localText (i : Instant) : String :=
  i.date.text ++ "T" ++ i.timeOfDay.text

/-- An instant with the short mark of the zone. -/
def Instant.zuluText (i : Instant) : String :=
  i.localText ++ "Z"

/-- An instant with the zone as an offset. -/
def Instant.offsetText (i : Instant) : String :=
  i.localText ++ "+00:00"

end Almanac.Calendar

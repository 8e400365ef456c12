import Almanac.Period.Amount

/-!
Durations with a whole number of each unit, such as `P1DT12H`.
-/

namespace Almanac.Period

structure Duration where
  years : Nat := 0
  months : Nat := 0
  weeks : Nat := 0
  days : Nat := 0
  hours : Nat := 0
  minutes : Nat := 0
  seconds : Nat := 0
  deriving DecidableEq

namespace Duration

/-- The step that a duration makes. Months beyond the limit of a step stop at it. -/
def step (d : Duration) : Step where
  months := min (min (12 * d.years) maxStepMonths + d.months) maxStepMonths
  seconds := 86400 * (7 * d.weeks + d.days) + 3600 * d.hours + 60 * d.minutes + d.seconds

/-- A number with its designator; nothing for zero. -/
def componentText (value : Nat) (designator : Char) : List Char :=
  if value = 0 then [] else Text.digits value ++ [designator]

/-- The components that stand before the mark of the time. -/
def dateText (d : Duration) : List Char :=
  componentText d.years 'Y' ++ componentText d.months 'M' ++ componentText d.weeks 'W' ++
    componentText d.days 'D'

/-- The components that stand after the mark of the time. -/
def timeText (d : Duration) : List Char :=
  componentText d.hours 'H' ++ componentText d.minutes 'M' ++ componentText d.seconds 'S'

/-- A duration with its components that are not zero, in order of size. -/
def text (d : Duration) : String :=
  String.ofList
    ('P' :: (d.dateText ++ if d.timeText.isEmpty then [] else 'T' :: d.timeText))

end Duration

end Almanac.Period

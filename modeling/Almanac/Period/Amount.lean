import Almanac.Calendar.Unit
import Almanac.Period.Step
import Almanac.Text.Numeral

/-!
Amounts: a number of one unit.
-/

namespace Almanac.Period

open Calendar

/-- The greatest number of seconds that a step holds. -/
def maxStepSeconds : Nat := 9223372036854775807

/-- The step of `number` units. A step beyond the limits stops at them; it leaves the calendar
either way. -/
def Step.ofUnits (unit : TimeUnit) (number : Nat) : Step :=
  match unit.length with
  | .seconds count => ⟨0, (min (count * min number maxStepSeconds) maxStepSeconds : Nat)⟩
  | .months count => ⟨min (count * min number maxStepMonths) maxStepMonths, 0⟩

structure Amount where
  number : Nat
  unit : TimeUnit
  deriving DecidableEq

namespace Amount

def step (a : Amount) : Step :=
  Step.ofUnits a.unit a.number

def text (a : Amount) : String :=
  "amount(num: " ++ Text.natural a.number ++ ", size: " ++ a.unit.name ++ ")"

end Amount

end Almanac.Period

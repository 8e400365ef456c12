import Almanac.Period.Duration

/-!
Intervals: what a recurrence steps by.
-/

namespace Almanac.Period

/-- A periodic rule: every amount, or every duration. -/
inductive Interval where
  | amount (a : Amount)
  | duration (d : Duration)
  deriving DecidableEq

namespace Interval

def step : Interval → Step
  | amount a => a.step
  | duration d => d.step

def text : Interval → String
  | amount a => "interval(every: " ++ a.text ++ ")"
  | duration d => "interval(every: iso8601(type: duration, specification: " ++ d.text ++ "))"

/-- Alternative intervals; more than one stand in parentheses. -/
def listText (intervals : List Interval) : String :=
  let joined := " | ".intercalate (intervals.map text)
  if 1 < intervals.length then "(" ++ joined ++ ")" else joined

end Interval

end Almanac.Period

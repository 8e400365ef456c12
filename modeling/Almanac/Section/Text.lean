import Almanac.Binary64.Shortest
import Almanac.Section.Basic

/-!
How sections are shown. Most of these texts can be read again as expressions.
-/

namespace Almanac

open Calendar Period Occurrence

/-- A time of day as a call; a second of zero is left out. -/
def Calendar.ClockTime.text (c : ClockTime) : String :=
  "time(hour: " ++ Text.natural c.hour ++ ", minute: " ++ Text.natural c.minute ++
    (if 0 < c.second then ", second: " ++ Text.natural c.second else "") ++ ")"

def WrittenLiteral.text (l : WrittenLiteral) : String :=
  "iso8601(type: " ++ l.kind.name ++ ", specification: " ++ l.written ++ ")"

def Section.text : Section → String
  | .moment i => momentText i
  | .recurrence r => r.text
  | .filter f => f.text
  | .filtered s => s.text
  | .group members => Filtered.listText members
  | .intervals alternatives => Interval.listText alternatives
  | .interval i => i.text
  | .amount a => a.text
  | .range low high => "range(min: " ++ low.text ++ ", max: " ++ high.text ++ ")"
  | .duration d => d.text
  | .now => "now()"
  | .epoch seconds => "epoch(epoch: " ++ seconds.text ++ ")"
  | .sunrise => "sunrise()"
  | .sunset => "sunset()"
  | .forever => "forever()"
  | .weekdays days => "day_name(name: " ++ ";".intercalate (days.toList.map Weekday.name) ++ ")"
  | .yearDay number => "day_number(number: " ++ Text.natural number ++ ")"
  | .time c => c.text
  | .date d => "date(" ++ d.text ++ ")"
  | .between start stop =>
    "between(start: " ++ momentText start ++ argumentText "end" (stop.map Bound.text) ++ ")"
  | .literal l => l.text

end Almanac

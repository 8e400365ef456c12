/-!
Times of day. A leap second extends the last second of a minute: its nanoseconds run on from one
to two billion, and it is written as second 60.
-/

namespace Almanac.Calendar

def nanosPerSecond : Nat := 1000000000

/-- A time of day: whole seconds since midnight, and nanoseconds. -/
structure TimeOfDay where
  second : Nat
  nano : Nat
  second_lt : second < 86400
  nano_lt : nano < 2000000000
  leap_at_minute_end : 1000000000 ≤ nano → second % 60 = 59
  deriving DecidableEq

namespace TimeOfDay

def midnight : TimeOfDay :=
  ⟨0, 0, by decide, by decide, by decide⟩

/-- The time with these numbers; second 60 stands for a leap second. -/
def ofNumbers? (hour minute second nano : Nat) : Option TimeOfDay :=
  if h : hour < 24 ∧ minute < 60 ∧ second ≤ 60 ∧ nano < 1000000000 then
    if hs : second = 60 then
      some ⟨3600 * hour + 60 * minute + 59, 1000000000 + nano, by omega, by omega, by omega⟩
    else
      some ⟨3600 * hour + 60 * minute + second, nano, by omega, by omega, by omega⟩
  else none

def hour (t : TimeOfDay) : Nat :=
  t.second / 3600

def minute (t : TimeOfDay) : Nat :=
  t.second / 60 % 60

/-- The second, from 0 to 59; that of a leap second is 59. -/
def secondOfMinute (t : TimeOfDay) : Nat :=
  t.second % 60

end TimeOfDay

/-- Hour, minute and second as written, which need not name a time of day. -/
structure ClockTime where
  hour : Nat
  minute : Nat
  second : Nat
  deriving DecidableEq

namespace ClockTime

/-- The time of day that is written, if there is one. -/
def timeOfDay? (c : ClockTime) : Option TimeOfDay :=
  if c.second < 60 then TimeOfDay.ofNumbers? c.hour c.minute c.second 0 else none

/-- What a clock that shows whole seconds shows. -/
def ofTimeOfDay (t : TimeOfDay) : ClockTime :=
  ⟨t.hour, t.minute, t.secondOfMinute⟩

end ClockTime

end Almanac.Calendar

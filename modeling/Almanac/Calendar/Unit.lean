/-!
The units that amounts of time are counted in, from the finest to the coarsest. A unit up to the
week is a fixed number of seconds; months and years follow the calendar.
-/

namespace Almanac.Calendar

inductive TimeUnit where
  | second
  | minute
  | hour
  | day
  | week
  | month
  | year
  deriving DecidableEq, Repr

/-- The length of a unit, in seconds or in calendar months. -/
inductive UnitLength where
  | seconds (count : Nat)
  | months (count : Nat)
  deriving DecidableEq, Repr

namespace TimeUnit

def all : List TimeUnit :=
  [second, minute, hour, day, week, month, year]

def name : TimeUnit → String
  | second => "second"
  | minute => "minute"
  | hour => "hour"
  | day => "day"
  | week => "week"
  | month => "month"
  | year => "year"

def names : List String :=
  all.map name

def ofName? (text : String) : Option TimeUnit :=
  all.find? (·.name = text)

def length : TimeUnit → UnitLength
  | second => .seconds 1
  | minute => .seconds 60
  | hour => .seconds 3600
  | day => .seconds 86400
  | week => .seconds 604800
  | month => .months 1
  | year => .months 12

/-- The length in seconds, for a unit of fixed length. -/
def seconds? (u : TimeUnit) : Option Nat :=
  match u.length with
  | .seconds count => some count
  | .months _ => none

/-- The length in months, for a unit that follows the calendar. -/
def months? (u : TimeUnit) : Option Nat :=
  match u.length with
  | .seconds _ => none
  | .months count => some count

/-- The position from the finest unit. -/
def index : TimeUnit → Nat
  | second => 0
  | minute => 1
  | hour => 2
  | day => 3
  | week => 4
  | month => 5
  | year => 6

def finer (a b : TimeUnit) : TimeUnit :=
  if a.index ≤ b.index then a else b

theorem ofName?_name (u : TimeUnit) : ofName? u.name = some u := by
  cases u <;> decide

end TimeUnit

end Almanac.Calendar

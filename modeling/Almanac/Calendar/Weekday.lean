import Almanac.SortedSet

/-!
Days of the week, under the names that expressions write.
-/

namespace Almanac.Calendar

inductive Weekday where
  | monday
  | tuesday
  | wednesday
  | thursday
  | friday
  | saturday
  | sunday
  deriving DecidableEq, Repr

namespace Weekday

def all : List Weekday :=
  [monday, tuesday, wednesday, thursday, friday, saturday, sunday]

/-- The days since Monday. -/
def index : Weekday → Nat
  | monday => 0
  | tuesday => 1
  | wednesday => 2
  | thursday => 3
  | friday => 4
  | saturday => 5
  | sunday => 6

def name : Weekday → String
  | monday => "mon"
  | tuesday => "tues"
  | wednesday => "wed"
  | thursday => "thur"
  | friday => "fri"
  | saturday => "sat"
  | sunday => "sun"

def names : List String :=
  all.map name

def ofName? (text : String) : Option Weekday :=
  all.find? (·.name = text)

/-- The day that many days after a Monday. -/
def ofIndex (n : Nat) : Weekday :=
  all.getD n sunday

/-- The weekday of a day of the calendar, from the number of days since Monday. -/
def ofNumber (n : Int) : Weekday :=
  ofIndex n.toNat

theorem eq_of_index_eq {a b : Weekday} (h : a.index = b.index) : a = b := by
  cases a <;> cases b <;> first | rfl | exact absurd h (by decide)

theorem ofName?_name (day : Weekday) : ofName? day.name = some day := by
  cases day <;> decide

end Weekday

instance : Ranked Weekday where
  rank := Weekday.index
  eq_of_rank_eq := Weekday.eq_of_index_eq

end Almanac.Calendar

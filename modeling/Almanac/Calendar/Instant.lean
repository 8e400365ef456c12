import Almanac.Calendar.Date
import Almanac.Calendar.TimeOfDay

/-!
Instants of Coordinated Universal Time: whole seconds since 1970-01-01 and nanoseconds. They are
ordered by time; a leap second comes after the second that it extends and before the next one.
-/

namespace Almanac.Calendar

def firstSecond : Int := -8334601228800

def lastSecond : Int := 8210266876799

structure Instant where
  second : Int
  nano : Nat
  firstSecond_le : firstSecond ≤ second
  le_lastSecond : second ≤ lastSecond
  nano_lt : nano < 2000000000
  leap_at_minute_end : 1000000000 ≤ nano → second % 60 = 59

namespace Instant

/-- Whether the moment lies in a leap second. -/
def IsLeap (i : Instant) : Prop :=
  1000000000 ≤ i.nano

instance (i : Instant) : Decidable i.IsLeap := by
  unfold IsLeap
  infer_instance

/-- The position in time. Each second has room for a leap second after it, so positions give the
order and not the distance. -/
def position (i : Instant) : Int :=
  2000000000 * i.second + i.nano

instance : LT Instant := ⟨fun a b => a.position < b.position⟩

instance : LE Instant := ⟨fun a b => a.position ≤ b.position⟩

instance (a b : Instant) : Decidable (a < b) :=
  inferInstanceAs (Decidable (a.position < b.position))

instance (a b : Instant) : Decidable (a ≤ b) :=
  inferInstanceAs (Decidable (a.position ≤ b.position))

instance : Min Instant := ⟨fun a b => if a ≤ b then a else b⟩

theorem lt_def {a b : Instant} : a < b ↔ a.position < b.position := Iff.rfl

theorem le_def {a b : Instant} : a ≤ b ↔ a.position ≤ b.position := Iff.rfl

theorem eq_of_position_eq {a b : Instant} (h : a.position = b.position) : a = b := by
  obtain ⟨s, n, _, _, hn, _⟩ := a
  obtain ⟨s', n', _, _, hn', _⟩ := b
  simp only [position] at h
  have hs : s = s' := by omega
  have : n = n' := by omega
  subst hs this
  rfl

instance : DecidableEq Instant := fun a b =>
  decidable_of_iff (a.position = b.position) ⟨eq_of_position_eq, congrArg position⟩

/-- The instant at that second, with nanoseconds below one second. -/
def ofSecond? (second : Int) (nano : Nat) : Option Instant :=
  if h : firstSecond ≤ second ∧ second ≤ lastSecond ∧ nano < 1000000000 then
    some ⟨second, nano, h.1, h.2.1, by omega, by omega⟩
  else none

/-- The last nanosecond of the calendar, apart from a leap second after it. -/
def latest : Instant :=
  ⟨lastSecond, 999999999, by decide, by decide, by decide, by decide⟩

def date (i : Instant) : Date where
  day := i.second / 86400
  firstDay_le := by
    have := i.firstSecond_le
    unfold firstSecond at this
    unfold firstDay
    omega
  le_lastDay := by
    have := i.le_lastSecond
    unfold lastSecond at this
    unfold lastDay
    omega

def timeOfDay (i : Instant) : TimeOfDay where
  second := (i.second % 86400).toNat
  nano := i.nano
  second_lt := by omega
  nano_lt := i.nano_lt
  leap_at_minute_end := by
    have := i.leap_at_minute_end
    omega

def on (d : Date) (t : TimeOfDay) : Instant where
  second := 86400 * d.day + t.second
  nano := t.nano
  firstSecond_le := by
    have := d.firstDay_le
    unfold firstDay at this
    unfold firstSecond
    omega
  le_lastSecond := by
    have := d.le_lastDay
    have := t.second_lt
    unfold lastDay at *
    unfold lastSecond
    omega
  nano_lt := t.nano_lt
  leap_at_minute_end := by
    have := t.leap_at_minute_end
    omega

/-- The start of the second, or of the leap second, that the moment lies in. -/
def wholeSecond (i : Instant) : Instant :=
  { i with
    nano := i.nano - i.nano % 1000000000
    nano_lt := by have := i.nano_lt; omega
    leap_at_minute_end := by have := i.leap_at_minute_end; omega }

/-- The moment that many seconds later. A move forward out of a leap second counts from the second
that it extends, a move backward from the one after it. -/
def addSeconds? (i : Instant) (seconds : Int) : Option Instant :=
  if seconds = 0 then some i
  else if i.IsLeap then
    ofSecond? (i.second + seconds + if seconds < 0 then 1 else 0) (i.nano - 1000000000)
  else ofSecond? (i.second + seconds) i.nano

/-- The moment at the same point of the minute that many minutes later. A leap second stays one. -/
def addMinutes? (i : Instant) (minutes : Int) : Option Instant :=
  if h : firstSecond ≤ i.second + 60 * minutes ∧ i.second + 60 * minutes ≤ lastSecond then
    some ⟨i.second + 60 * minutes, i.nano, h.1, h.2, i.nano_lt, by
      have := i.leap_at_minute_end
      omega⟩
  else none

/-- The moment that many months later at the same time of day, on the last day of a month that is
too short. A leap second stays one. -/
def addMonths? (i : Instant) (months : Nat) : Option Instant :=
  (i.date.addMonths? months).map fun d => Instant.on d i.timeOfDay

/-- The nanoseconds from `earlier` to `later`. Within a day a leap second counts, from one day to
another it does not. -/
def nanosSince (later earlier : Instant) : Int :=
  let day := later.date.day - earlier.date.day
  let start := earlier.timeOfDay.second
  let stop := later.timeOfDay.second
  let leap : Int :=
    if start < stop ∧ earlier.IsLeap then 1 else if stop < start ∧ later.IsLeap then -1 else 0
  (86400 * day + stop - start + leap) * 1000000000 + later.nano - earlier.nano

/-- Whole seconds from `earlier` to `later`, rounded toward zero. -/
def secondsSince (later earlier : Instant) : Int :=
  (later.nanosSince earlier).tdiv 1000000000

/-- Whole milliseconds from `earlier` to `later`, rounded toward zero. -/
def millisecondsSince (later earlier : Instant) : Int :=
  (later.nanosSince earlier).tdiv 1000000

/-- The difference of the months that two moments lie in. -/
def monthsSince (later earlier : Instant) : Int :=
  later.date.monthIndex - earlier.date.monthIndex

end Instant

/-- Why a computation breaks off without a result: it would have to go on with an instant or a date
beyond the calendar. -/
inductive Interruption where
  | calendarEnd
  deriving DecidableEq, Repr

end Almanac.Calendar

import Almanac.Reduction.Simplify

/-!
Sections that name a moment. A section that names only a day or a time of day is filled up from
the clock: a time is one of today, a day begins at midnight, and a day of the week is the next one,
which may be today.
-/

namespace Almanac

open Calendar Occurrence

/-- How many days ahead a day of the week is; zero if it is today. -/
def daysUntil (today day : Weekday) : Nat :=
  (day.index + 7 - today.index) % 7

/-- The least number of days ahead of any of the days. -/
def nearestAhead? (today : Weekday) (days : SortedSet Weekday) : Option Nat :=
  (days.toList.map (daysUntil today)).min?

/-- The next of some days of the week, from today on. Where that date is beyond the calendar the
search breaks off. -/
def nextWeekday (today : Date) (days : SortedSet Weekday) : Reduction Reason Date :=
  match nearestAhead? today.weekday days with
  | none => .fail .noWeekday
  | some ahead =>
    match today.addDays? ahead with
    | some d => pure d
    | none => .breakOff .calendarEnd

namespace Section

/-- The end that a section without literals and times of the sun names. -/
def directBound (ctx : Context) (forever : Bool) (s : Section) : Reduction Reason Bound :=
  let today := ctx.now.date
  match s with
  | moment i => pure (.moment i)
  | now => pure (.moment ctx.now)
  | recurrence r =>
    match r.stop, r.every with
    | none, none => pure (.moment r.start)
    | _, _ => .fail (.notMoment .recurrence)
  | epoch seconds =>
    match epochInstant? seconds with
    | some i => pure (.moment i)
    | none => .fail (.epochOutOfRange seconds)
  | time c =>
    match c.timeOfDay? with
    | some t => pure (.moment (Instant.on today t))
    | none => .fail (.notTimeOfDay c)
  | date d => pure (.moment (Instant.on d .midnight))
  | weekdays days => (fun d => .moment (Instant.on d .midnight)) <$> nextWeekday today days
  | yearDay number =>
    match Date.ofDayOfYear? today.year number with
    | some d => pure (.moment (Instant.on d .midnight))
    | none => .fail (.noSuchYearDay today.year number)
  | Section.forever => if forever then pure .forever else .fail .foreverNotEnd
  | s => .fail (.notMoment s.kind)

/-- The end that a section names: a moment, or one that never comes where that is admitted. -/
def toBound (ctx : Context) (forever : Bool) (s : Section) : Reduction Reason Bound :=
  let expanded : Reduction Reason Section :=
    match s with
    | sunrise => (s.simplify ctx).mapError .nested
    | sunset => (s.simplify ctx).mapError .nested
    | literal _ => (s.simplify ctx).mapError .nested
    | s => pure s
  expanded >>= directBound ctx forever

end Section

end Almanac

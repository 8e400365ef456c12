import Almanac.Occurrence.Candidates
import Almanac.Occurrence.Merge
import Almanac.Occurrence.Recurrence

/-!
The next occurrence after a given time. `following` ignores filters; the admitted search walks
from one occurrence to the next until the filters let one pass.
-/

namespace Almanac.Occurrence

open Calendar Period

/-- A single moment occurs until the second that it lies in is over. -/
def momentFollowing (moment time : Instant) : Option Instant :=
  if time.wholeSecond ≤ moment then some moment else none

/-- The next step of any of the intervals after `time`, counted from `start`. -/
def intervalsFollowing (intervals : List Interval) (time start : Instant)
    (stop : Option Instant) : Option Instant :=
  let generators := intervals.map fun i => Candidates.ofInterval i start time stop
  (merge Candidates.next? generators time stop).found

namespace Recurrence

/-- The next occurrence after `time`: none after the end, the start before the start, and then the
next step, or the start alone where nothing recurs. -/
def following (r : Recurrence) (time : Instant) : Option Instant :=
  if r.stopInstant?.any (· < time) then none
  else if time < r.start then momentFollowing r.start time
  else
    match r.every with
    | some intervals => intervalsFollowing intervals time r.start r.stopInstant?
    | none => momentFollowing r.start time

end Recurrence

/-- What an admitted search comes to: an occurrence or none, unless it breaks off. -/
abbrev Answer := Except Interruption (Option Instant)

namespace Answer

/-- The earlier of two answers. If one of the searches broke off there is none. -/
def earlier : Answer → Answer → Answer
  | .ok a, .ok b => .ok (Occurrence.earlier a b)
  | .error e, _ => .error e
  | .ok _, .error e => .error e

def earliest (answers : List Answer) : Answer :=
  answers.foldr earlier (.ok none)

end Answer

/-- The first of up to `steps` successive occurrences that `admits` lets pass. An occurrence that
is not after the cursor moves the cursor to one second after itself. -/
def walkAdmitted (following : Instant → Option Instant) (admits : Instant → Bool) :
    Nat → Instant → Answer
  | 0, _ => .ok none
  | steps + 1, cursor =>
    match following cursor with
    | none => .ok none
    | some candidate =>
      if admits candidate then .ok (some candidate)
      else if cursor < candidate then walkAdmitted following admits steps candidate
      else
        match candidate.addSeconds? 1 with
        | some later => walkAdmitted following admits steps later
        | none => .error .calendarEnd

/-- The first admitted occurrence after `time` within the limit on the number of steps. -/
def firstAdmitted (following : Instant → Option Instant) (admits : Instant → Bool)
    (time : Instant) : Answer :=
  walkAdmitted following admits maxRounds time

namespace Filtered

/-- The next occurrence after `time`, whatever the filters say. -/
def following (s : Filtered) (time : Instant) : Option Instant :=
  s.recurrence.following time

def admits (s : Filtered) (i : Instant) : Bool :=
  s.filters.all (·.admits i)

/-- The next occurrence after `time` that the filters admit. -/
def nextAdmitted (s : Filtered) (time : Instant) : Answer :=
  firstAdmitted s.following s.admits time

end Filtered

end Almanac.Occurrence

import Almanac.Occurrence.Search
import Almanac.Section.Basic
import Almanac.Section.Epoch

/-!
The next occurrence of a section, and whether its filters admit an instant.
-/

namespace Almanac.Section

open Calendar Occurrence

/-- The next occurrence after `time`, whatever filters say. A section that does not say when
anything happens has none. -/
def following (s : Section) (time : Instant) : Option Instant :=
  match s with
  | moment i => momentFollowing i time
  | recurrence r => r.following time
  | filtered m => m.following time
  | group members => earliest (members.map (·.following time))
  | epoch seconds => (epochInstant? seconds).bind (momentFollowing · time)
  | _ => none

/-- Whether the filters admit an instant; a section without filters admits every instant. Of a
group one member is enough. -/
def admits (s : Section) (i : Instant) : Bool :=
  match s with
  | filter f => f.admits i
  | filtered m => m.admits i
  | group members => members.any (·.admits i)
  | weekdays days => days.admits i.date.weekday
  | yearDay number => i.date.dayOfYear = number
  | _ => true

/-- The next occurrence after `time` that the filters admit. Each member of a group is searched on
its own, with its own filters. -/
def nextAdmitted (s : Section) (time : Instant) : Answer :=
  match s with
  | group members => .earliest (members.map (·.nextAdmitted time))
  | s => firstAdmitted s.following s.admits time

end Almanac.Section

import Mathlib.Tactic.Choose
import Almanac.Proofs.Occurrence.Admitted
import Almanac.Proofs.Occurrence.Answer
import Almanac.Section.Search

/-!
The admitted search of a group. Each member is searched on its own, with its own filters; one
member that would have to look beyond the calendar breaks off the search of the whole group.
-/

namespace Almanac.Section

open Calendar Occurrence

variable {members : List Filtered} {time : Instant}

theorem nextAdmitted_group_eq_error (hregular : ∀ s ∈ members, s.recurrence.IsRegular)
    (hleaves : ∃ s ∈ members, s.LeavesCalendar time) :
    (group members).nextAdmitted time = .error .calendarEnd := by
  obtain ⟨s, hs, hleaves⟩ := hleaves
  have hmember := Filtered.nextAdmitted_of_leavesCalendar (hregular s hs) hleaves
  exact Answer.earliest_eq_error (List.mem_map.2 ⟨s, hs, hmember⟩)

theorem isFirst_nextAdmitted_group (hregular : ∀ s ∈ members, s.recurrence.IsRegular)
    (htime : ¬ time.IsLeap) (hstays : ¬ ∃ s ∈ members, s.LeavesCalendar time) :
    ∃ answer, (group members).nextAdmitted time = .ok answer ∧
      IsFirst {i | ∃ s ∈ members, IsLeast (s.admittedEarly time) i} answer := by
  have hmembers : ∀ s ∈ members, ∃ answer, s.nextAdmitted time = .ok answer ∧
      IsFirst {i | IsLeast (s.admittedEarly time) i} answer := by
    intro s hs
    have hmember := Filtered.isFirst_nextAdmitted (hregular s hs) htime
      fun hleaves => hstays ⟨s, hs, hleaves⟩
    obtain ⟨answer, hanswer, hfirst⟩ := hmember
    exact ⟨answer, hanswer, (isFirst_setOf_eq_some answer).congr fun i => hfirst.eq_some_iff⟩
  choose! found hfound hfirst using hmembers
  exact ⟨_, Answer.earliest_map_eq_ok hfound, isFirst_earliest members _ found hfirst⟩

end Almanac.Section

import Almanac.Proofs.Occurrence.Origin
import Almanac.Proofs.Section.Producers

/-!
Where the occurrences of a section come from: one of its recurrences, and in the admitted search one
whose own filters let the occurrence pass. Nothing is assumed about the section or the query.
-/

namespace Almanac.Section

open Calendar Occurrence

variable {s : Section} {time i : Instant}

theorem exists_produces_of_following_eq_some (h : s.following time = some i) :
    ∃ m ∈ s.producers, m.recurrence.Produces time i := by
  rw [following_eq_earliest] at h
  obtain ⟨m, hm, hfollowing⟩ := List.mem_map.1 (mem_of_earliest_eq_some h)
  exact ⟨m, hm, Recurrence.produces_of_following_eq_some hfollowing⟩

theorem exists_produces_of_nextAdmitted_eq_ok_some (h : s.nextAdmitted time = .ok (some i)) :
    ∃ m ∈ s.producers, m.recurrence.Produces time i ∧ m.admits i = true := by
  rw [nextAdmitted_eq_earliest] at h
  obtain ⟨m, hm, hnext⟩ := List.mem_map.1 (Answer.mem_of_earliest_eq_ok_some h)
  exact ⟨m, hm, Recurrence.produces_of_walkAdmitted_eq_ok_some maxRounds hnext⟩

/-- The next occurrence is one of a single recurrence of the section, and the next one admitted is
one that the same recurrence's filters admit. -/
theorem produced_by_one_recurrence (s : Section) (time i : Instant) :
    (s.following time = some i → ∃ m ∈ s.producers, m.recurrence.Produces time i) ∧
    (s.nextAdmitted time = .ok (some i) →
      (∃ m ∈ s.producers, m.recurrence.Produces time i ∧ m.admits i = true) ∧
        s.admits i = true) := by
  refine ⟨exists_produces_of_following_eq_some, fun h => ?_⟩
  obtain ⟨m, hm, hproduces, hadmits⟩ := exists_produces_of_nextAdmitted_eq_ok_some h
  exact ⟨⟨m, hm, hproduces, hadmits⟩, admits_of_mem_producers hm hadmits⟩

/-- Once, at nine o'clock only, or every week and every month and a day, on the second of a month
only. The first of January comes next, as the start of the one; what is admitted next is the second
of February, a month and a day from the start of the other. -/
theorem produced_by_one_recurrence_once_or_mixed :
    let start := Instant.midnight 0 (by decide)
    let once : Filtered := ⟨.once start, [{ hours := .ofList [9] }]⟩
    let mixed : Filtered :=
      ⟨{ start := start
         every := some [.amount ⟨1, .week⟩, .duration { months := 1, days := 1 }] },
        [{ days := .ofList [2] }]⟩
    let s := group [once, mixed]
    let second := Instant.midnight 32 (by decide)
    s.following start = some start ∧ s.nextAdmitted start = .ok (some second) ∧
      (∃ m ∈ s.producers, m.recurrence.Produces start start) ∧
      (∃ m ∈ s.producers, m.recurrence.Produces start second ∧ m.admits second = true) ∧
      s.admits second = true := by
  intro start once mixed s second
  have hfollowing : s.following start = some start := by decide +kernel
  have hnext : s.nextAdmitted start = .ok (some second) := by decide +kernel
  have hstart := (produced_by_one_recurrence s start start).1 hfollowing
  have hsecond := (produced_by_one_recurrence s start second).2 hnext
  exact ⟨hfollowing, hnext, hstart, hsecond⟩

end Almanac.Section

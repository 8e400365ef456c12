import Almanac.Proofs.Occurrence.Polling
import Almanac.Proofs.Section.Producers

/-!
Asking a section twice. A later query never reveals an earlier or a new occurrence, and one that is
made before the announced occurrence is answered with it again.
-/

namespace Almanac.Section

open Calendar Period Occurrence

variable {s : Section} {early late : Instant}

/-- What remains of any of the recurrences behind a section. -/
def remainingAfter (s : Section) (time : Instant) : Set Instant :=
  {i | ∃ m ∈ s.producers, i ∈ m.recurrence.remainingAfter time}

theorem isFirst_following_remainingAfter {time : Instant}
    (huniform : ∀ m ∈ s.producers, m.recurrence.IsUniform) (htime : ¬ time.IsLeap) :
    IsFirst (s.remainingAfter time) (s.following time) := by
  rw [following_eq_earliest]
  exact isFirst_earliest s.producers _ _ fun m hm =>
    Recurrence.isFirst_following_remainingAfter (huniform m hm) htime

theorem remainingAfter_subset (hle : early ≤ late) :
    s.remainingAfter late ⊆ s.remainingAfter early := by
  rintro i ⟨m, hm, hi⟩
  exact ⟨m, hm, Recurrence.remainingAfter_subset hle hi⟩

theorem mem_remainingAfter_of_lt {i : Instant}
    (hstop : ∀ m ∈ s.producers, ∀ stop ∈ m.recurrence.stopInstant?, m.recurrence.start ≤ stop)
    (hi : i ∈ s.remainingAfter early) (hlt : late < i) : i ∈ s.remainingAfter late := by
  obtain ⟨m, hm, hi⟩ := hi
  exact ⟨m, hm, Recurrence.mem_remainingAfter_of_lt (hstop m hm) hi hlt⟩

/-- Of two queries the later one reveals nothing before the answer to the earlier one, and nothing
at all where that one had no answer. If no recurrence of the section ends before it starts, the
later query is answered alike as long as the announced occurrence is still to come. -/
theorem following_asked_twice (huniform : ∀ m ∈ s.producers, m.recurrence.IsUniform)
    (hearly : ¬ early.IsLeap) (hlate : ¬ late.IsLeap) (hle : early ≤ late) :
    (∀ i, s.following late = some i → ∃ j, s.following early = some j ∧ j ≤ i) ∧
    ((∀ m ∈ s.producers, ∀ stop ∈ m.recurrence.stopInstant?, m.recurrence.start ≤ stop) →
      ∀ i, s.following early = some i → late < i → s.following late = some i) := by
  have hfirst := isFirst_following_remainingAfter huniform hearly
  have hlater := isFirst_following_remainingAfter huniform hlate
  have hsubset := remainingAfter_subset (s := s) hle
  constructor
  · intro i hi
    rw [hi] at hlater
    exact hlater.exists_le_of_subset hfirst hsubset
  · intro hstop i hi hlt
    rw [hi] at hfirst
    exact hfirst.eq_some_of_subset hlater hsubset (mem_remainingAfter_of_lt hstop hfirst.mem hlt)

/-- Weekly for two weeks, or monthly from the end of January on: asked on the eighth and again on
the last day but one, the group answers with the end of the month both times. -/
theorem following_asked_twice_weekly_or_monthly :
    let start := Instant.midnight 0 (by decide)
    let weekly : Filtered :=
      ⟨{ start := start
         stop := some (.moment (.midnight 14 (by decide)))
         every := some [.amount ⟨1, .week⟩] }, []⟩
    let monthly : Filtered :=
      ⟨{ start := .midnight 30 (by decide), every := some [.amount ⟨1, .month⟩] }, []⟩
    let s := group [weekly, monthly]
    let early := Instant.midnight 7 (by decide)
    let late := Instant.midnight 29 (by decide)
    (∀ m ∈ s.producers, m.recurrence.IsUniform) ∧ ¬ early.IsLeap ∧ ¬ late.IsLeap ∧ early ≤ late ∧
      (∀ m ∈ s.producers, ∀ stop ∈ m.recurrence.stopInstant?, m.recurrence.start ≤ stop) ∧
      s.following early = some (.midnight 30 (by decide)) ∧
      s.following late = some (.midnight 30 (by decide)) := by
  intro start weekly monthly s early late
  have huniform : ∀ m ∈ s.producers, m.recurrence.IsUniform := by decide
  have hstop : ∀ m ∈ s.producers, ∀ stop ∈ m.recurrence.stopInstant?,
      m.recurrence.start ≤ stop := by decide
  have hearly : ¬ early.IsLeap := by decide
  have hlate : ¬ late.IsLeap := by decide
  have hle : early ≤ late := by decide
  have hfollowing : s.following early = some (.midnight 30 (by decide)) := by decide +kernel
  refine ⟨huniform, hearly, hlate, hle, hstop, hfollowing, ?_⟩
  exact (following_asked_twice huniform hearly hlate hle).2 hstop _ hfollowing (by decide)

/-- An event of the eleventh of January that ends on the sixth is announced on the fourth and given
up on the eighth. -/
theorem not_following_asked_twice_end_before_start :
    let s := recurrence
      { start := .midnight 10 (by decide), stop := some (.moment (.midnight 5 (by decide))) }
    let early := Instant.midnight 3 (by decide)
    let late := Instant.midnight 7 (by decide)
    (∀ m ∈ s.producers, m.recurrence.IsUniform) ∧ ¬ early.IsLeap ∧ ¬ late.IsLeap ∧ early ≤ late ∧
      ¬ ∀ i, s.following early = some i → late < i → s.following late = some i := by
  intro s early late
  refine ⟨by decide, by decide, by decide, by decide, fun hsame => ?_⟩
  have hearly : s.following early = some (.midnight 10 (by decide)) := by decide +kernel
  have hlate : s.following late = none := by decide +kernel
  have hagain := hsame _ hearly (by decide)
  rw [hlate] at hagain
  cases hagain

end Almanac.Section

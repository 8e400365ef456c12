import Almanac.Proofs.Occurrence.Following

/-!
Two queries one after the other. What is left to occur after a later query is what was left after
an earlier one, without what lies between the two. Only an end before the start spoils this: the
start is then announced, and given up when the end has passed.
-/

namespace Almanac.Occurrence

open Calendar Period

namespace Recurrence

/-- No interval mixes parts of fixed length with parts that follow the calendar, and the start does
not lie in a leap second. The end may lie anywhere. -/
structure IsUniform (r : Recurrence) : Prop where
  every_isUniform : ∀ intervals ∈ r.every, ∀ e ∈ intervals, e.IsUniform
  start_not_isLeap : ¬ r.start.IsLeap

instance (r : Recurrence) : Decidable r.IsUniform :=
  decidable_of_iff ((∀ intervals ∈ r.every, ∀ e ∈ intervals, e.IsUniform) ∧ ¬ r.start.IsLeap)
    ⟨fun ⟨huniform, hleap⟩ => ⟨huniform, hleap⟩, fun ⟨huniform, hleap⟩ => ⟨huniform, hleap⟩⟩

/-- The occurrences after `time`, and none once the end has passed. -/
def remainingAfter (r : Recurrence) (time : Instant) : Set Instant :=
  {i | i ∈ r.occurrencesAfter time ∧ ∀ stop ∈ r.stopInstant?, time ≤ stop}

variable {r : Recurrence} {time early late i : Instant}

/-- The next occurrence is the first of those that remain, also where the end comes before the
start. -/
theorem isFirst_following_remainingAfter (huniform : r.IsUniform) (htime : ¬ time.IsLeap) :
    IsFirst (r.remainingAfter time) (r.following time) := by
  by_cases hover : r.stopInstant?.any (· < time) = true
  · rw [following_of_over hover]
    exact isFirst_none fun i hi => absurd hover (not_any_lt_iff.2 hi.2)
  · have hbefore := not_any_lt_iff.1 hover
    have hfirst : IsFirst (r.occurrencesAfter time) (r.following time) := by
      cases hevery : r.every with
      | none => exact isFirst_following_of_every_eq_none hevery
      | some intervals =>
        have hwithin : ∀ e ∈ intervals, ¬ e.step.Overshoots r.start time := fun e he =>
          (huniform.every_isUniform intervals hevery e he).not_overshoots
            huniform.start_not_isLeap htime
        have hdue := isFirst_following_of_not_over hevery huniform.start_not_isLeap hwithin hover
        simpa only [occurrencesAfter, hevery] using hdue
    exact hfirst.congr fun i => ⟨fun hi => ⟨hi, hbefore⟩, fun hi => hi.1⟩

/-- Nothing new remains later. -/
theorem remainingAfter_subset (hle : early ≤ late) :
    r.remainingAfter late ⊆ r.remainingAfter early := by
  rintro i ⟨hi, hbefore⟩
  refine ⟨?_, fun stop hstop => Instant.le_trans hle (hbefore stop hstop)⟩
  unfold occurrencesAfter at *
  cases hevery : r.every with
  | none =>
    simp only [hevery] at hi
    obtain ⟨rfl, hdue, hstop⟩ := hi
    refine ⟨rfl, Instant.le_trans (Instant.wholeSecond_le_wholeSecond hle) hdue, ?_⟩
    exact fun stop hmem => Instant.le_trans hle (hstop stop hmem)
  | some intervals =>
    simp only [hevery] at hi
    exact ⟨hi.1, Instant.lt_of_le_of_lt hle hi.2⟩

/-- An occurrence that is still to come remains, if the end does not lie before the start. -/
theorem mem_remainingAfter_of_lt (hstop : ∀ stop ∈ r.stopInstant?, r.start ≤ stop)
    (hi : i ∈ r.remainingAfter early) (hlt : late < i) : i ∈ r.remainingAfter late := by
  obtain ⟨hi, _⟩ := hi
  unfold remainingAfter occurrencesAfter at *
  cases hevery : r.every with
  | none =>
    simp only [hevery] at hi
    obtain ⟨rfl, _, _⟩ := hi
    have hdue := Instant.le_trans late.wholeSecond_le (Instant.le_of_lt hlt)
    have hbefore : ∀ stop ∈ r.stopInstant?, late ≤ stop := fun stop hmem =>
      Instant.le_of_lt (Instant.lt_of_lt_of_le hlt (hstop stop hmem))
    exact ⟨⟨rfl, hdue, hbefore⟩, hbefore⟩
  | some intervals =>
    simp only [hevery] at hi
    refine ⟨⟨hi.1, hlt⟩, fun stop hmem => ?_⟩
    rcases hi.1 with rfl | ⟨_, _, _, _, _, hbefore⟩
    · exact Instant.le_of_lt (Instant.lt_of_lt_of_le hlt (hstop stop hmem))
    · exact Instant.le_of_lt (Instant.lt_trans hlt (hbefore stop hmem))

end Recurrence

end Almanac.Occurrence

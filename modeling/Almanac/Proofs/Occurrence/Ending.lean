import Almanac.Proofs.Occurrence.Following
import Almanac.Proofs.Occurrence.Origin

/-!
Occurrences and the end of their recurrence. The intervals never lead to the end or beyond it; the
start is shown whatever the end is, as long as the query is not after the end. So an occurrence lies
beyond the end only if it is the start of a recurrence that ends before it starts.
-/

namespace Almanac.Occurrence

open Calendar Period

namespace Recurrence

variable {r : Recurrence} {time stop i : Instant}

/-- After the end there is no answer. -/
theorem le_stop_of_following_eq_some (h : r.following time = some i) :
    ∀ stop ∈ r.stopInstant?, time ≤ stop := by
  refine not_any_lt_iff.1 fun hover => ?_
  rw [following_of_over hover] at h
  cases h

/-- The start apart, all occurrences come before the end. -/
theorem Produces.eq_start_or_lt_stop (h : r.Produces time i) :
    i = r.start ∨ ∀ stop ∈ r.stopInstant?, i < stop := by
  rcases h with ⟨hstart, -⟩ | ⟨_, -, _, -, -, -, hbefore⟩
  · exact Or.inl hstart
  · exact Or.inr hbefore

/-- An occurrence is not after the end, unless it is the start of a recurrence that ends before it
starts: this start is announced until the end has passed, whatever the intervals are. -/
theorem following_le_stop (hstop : r.stopInstant? = some stop) :
    (∀ i, r.following time = some i →
      i ≤ stop ∨ (i = r.start ∧ stop < r.start ∧ time ≤ stop)) ∧
    (stop < r.start → time ≤ stop → r.following time = some r.start) := by
  constructor
  · intro i hi
    rcases (produces_of_following_eq_some hi).eq_start_or_lt_stop with rfl | hbefore
    · by_cases hle : r.start ≤ stop
      · exact Or.inl hle
      · exact Or.inr ⟨rfl, Instant.not_le.1 hle, le_stop_of_following_eq_some hi stop hstop⟩
    · exact Or.inl (Instant.le_of_lt (hbefore stop hstop))
  · intro hlt hle
    refine following_of_lt_start (Instant.lt_of_le_of_lt hle hlt) fun other hother => ?_
    rw [hstop] at hother
    cases hother
    exact hle

/-- Weekly for two weeks: asked in the first week the answer is the eighth of January. -/
theorem following_le_stop_weekly :
    let stop := Instant.midnight 14 (by decide)
    let r : Recurrence :=
      { start := .midnight 0 (by decide)
        stop := some (.moment stop)
        every := some [.amount ⟨1, .week⟩] }
    let time := Instant.midnight 3 (by decide)
    let eighth := Instant.midnight 7 (by decide)
    r.stopInstant? = some stop ∧ ¬ stop < r.start ∧ r.following time = some eighth ∧
      eighth ≤ stop := by
  intro stop r time eighth
  have hstop : r.stopInstant? = some stop := rfl
  have hforward : ¬ stop < r.start := by decide
  have hfollowing : r.following time = some eighth := by decide +kernel
  refine ⟨hstop, hforward, hfollowing, ?_⟩
  rcases (following_le_stop hstop).1 eighth hfollowing with hle | ⟨-, hbackward, -⟩
  · exact hle
  · exact absurd hbackward hforward

/-- An event that starts on the eleventh of January and ends on the sixth occurs on the eleventh, if
it is asked about on the fourth. -/
theorem not_following_le_stop_end_before_start :
    let stop := Instant.midnight 5 (by decide)
    let r : Recurrence := { start := .midnight 10 (by decide), stop := some (.moment stop) }
    let time := Instant.midnight 3 (by decide)
    r.stopInstant? = some stop ∧ ¬ ∀ i, r.following time = some i → i ≤ stop := by
  intro stop r time
  have hfollowing : r.following time = some r.start := by decide +kernel
  have hafter : ¬ r.start ≤ stop := by decide
  exact ⟨rfl, fun hwithin => hafter (hwithin _ hfollowing)⟩

end Recurrence

end Almanac.Occurrence

import Almanac.Proofs.Occurrence.Intervals

/-!
Where an occurrence comes from. Every answer of a search is the start of its recurrence or a
repetition of one of its intervals, whatever the intervals are and wherever the estimate leads. The
admitted search moves its cursor forward only, so its answer comes from the same place when the
first query is asked.
-/

namespace Almanac.Occurrence

open Calendar Period

variable {start time : Instant} {stop : Option Instant} {i : Instant}

theorem mem_instants_of_intervalsFollowing_eq_some {intervals : List Interval}
    (h : intervalsFollowing intervals time start stop = some i) :
    ∃ e ∈ intervals, i ∈ Candidates.instants e.step start time stop := by
  rw [intervalsFollowing_eq_earliest] at h
  obtain ⟨e, he, hfirst⟩ := List.mem_map.1 (mem_of_earliest_eq_some h)
  obtain ⟨⟨_, rest⟩, hnext, rfl⟩ := Option.map_eq_some_iff.1 hfirst
  exact ⟨e, he, Candidates.mem_instants_of_next?_ofStep hnext⟩

theorem momentFollowing_eq_some_iff {moment : Instant} :
    momentFollowing moment time = some i ↔ i = moment ∧ time.wholeSecond ≤ moment := by
  unfold momentFollowing
  split
  case isTrue hdue => simp [hdue, eq_comm]
  case isFalse hover => simp [hover]

namespace Recurrence

/-- Where an occurrence that is asked for at `time` comes from: it is the start, and the second of
`time` is not after it, or it is one or more steps of one of the intervals from the start, after
`time` and before the end. -/
def Produces (r : Recurrence) (time i : Instant) : Prop :=
  (i = r.start ∧ time.wholeSecond ≤ r.start) ∨
    ∃ intervals ∈ r.every, ∃ e ∈ intervals,
      i ∈ Candidates.instants e.step r.start time r.stopInstant?

variable {r : Recurrence} {cursor : Instant}

theorem produces_of_following_eq_some (h : r.following time = some i) : r.Produces time i := by
  unfold following at h
  split at h
  case isTrue => cases h
  case isFalse =>
    split at h
    case isTrue => exact Or.inl (momentFollowing_eq_some_iff.1 h)
    case isFalse =>
      cases hevery : r.every with
      | none =>
        rw [hevery] at h
        exact Or.inl (momentFollowing_eq_some_iff.1 h)
      | some intervals =>
        rw [hevery] at h
        exact Or.inr ⟨intervals, hevery, mem_instants_of_intervalsFollowing_eq_some h⟩

/-- What a later query is answered with has the same origin for an earlier one. -/
theorem Produces.of_le (hle : time ≤ cursor) (h : r.Produces cursor i) : r.Produces time i := by
  rcases h with ⟨hstart, hdue⟩ | ⟨intervals, hevery, e, he, hreached, hafter, hbefore⟩
  · exact Or.inl ⟨hstart, Instant.le_trans (Instant.wholeSecond_le_wholeSecond hle) hdue⟩
  · exact Or.inr ⟨intervals, hevery, e, he, hreached, Instant.lt_of_le_of_lt hle hafter, hbefore⟩

/-- Only the start is ever shown at or before the cursor, and only within its second. So a second
after it is after the cursor. -/
theorem Produces.le_addSeconds?_one {candidate later : Instant} (h : r.Produces cursor candidate)
    (hle : ¬ cursor < candidate) (hlater : candidate.addSeconds? 1 = some later) :
    cursor ≤ later := by
  rcases h with ⟨rfl, hdue⟩ | ⟨_, _, _, _, _, hafter, _⟩
  · exact Instant.le_addSeconds?_one hdue hlater
  · exact absurd hafter hle

/-- By induction on the steps that are left, for any cursor: the rest of the walk begins at a later
cursor, so what it finds has its origin at this one too. -/
theorem produces_of_walkAdmitted_eq_ok_some {admits : Instant → Bool} (steps : Nat)
    (h : walkAdmitted r.following admits steps cursor = .ok (some i)) :
    r.Produces cursor i ∧ admits i = true := by
  induction steps generalizing cursor with
  | zero => cases h
  | succ steps ih =>
    unfold walkAdmitted at h
    cases hnext : r.following cursor with
    | none =>
      rw [hnext] at h
      cases h
    | some candidate =>
      have hcandidate := produces_of_following_eq_some hnext
      simp only [hnext] at h
      by_cases hadmits : admits candidate = true
      · rw [if_pos hadmits] at h
        cases h
        exact ⟨hcandidate, hadmits⟩
      · rw [if_neg hadmits] at h
        by_cases hafter : cursor < candidate
        · rw [if_pos hafter] at h
          obtain ⟨hproduces, hpass⟩ := ih h
          exact ⟨hproduces.of_le (Instant.le_of_lt hafter), hpass⟩
        · rw [if_neg hafter] at h
          cases hlater : candidate.addSeconds? 1 with
          | none =>
            rw [hlater] at h
            cases h
          | some later =>
            rw [hlater] at h
            obtain ⟨hproduces, hpass⟩ := ih h
            exact ⟨hproduces.of_le (hcandidate.le_addSeconds?_one hafter hlater), hpass⟩

end Recurrence

end Almanac.Occurrence

import Almanac.Occurrence.Search
import Almanac.Proofs.Occurrence.Answer
import Almanac.Proofs.Occurrence.Candidates
import Almanac.Proofs.Occurrence.Merge

/-!
Several intervals side by side. The first candidate of each lies after the query and before the
limit, whatever its step is and wherever its estimate leads, so one round of the merge is enough.
Intervals added to others therefore answer as they would on their own, and the earlier answer
counts.
-/

namespace Almanac.Occurrence

open Calendar Period

variable {s : Step} {start time : Instant} {stop : Option Instant} {i : Instant}

theorem one_le_stepBack (s : Step) (start time : Instant) (estimate : Nat) :
    1 ≤ stepBack s start time estimate := by
  induction estimate using stepBack.induct s start time with
  | case1 => exact Nat.le_refl 1
  | case2 => exact Nat.le_refl 1
  | case3 index reached hreached hlt ih =>
    rw [stepBack, hreached]
    simpa only [hlt, if_true] using ih
  | case4 index reached hreached hlt =>
    rw [stepBack, hreached]
    simp [hlt]
  | case5 index hnone =>
    rw [stepBack, hnone]
    simp

/-- The way forward stops at an instant after the time, at the index that it began at or later. -/
theorem stepForward?_eq_some (hforward : s.isZero = false) {index found : Nat}
    (h : stepForward? s start time hforward index = some found) :
    index ≤ found ∧ ∃ reached, s.nth? start found = some reached ∧ time < reached := by
  induction index using stepForward?.induct s start time hforward with
  | case1 index reached hreached hle ih =>
    rw [stepForward?_of_eq_some hforward hreached, if_pos hle] at h
    obtain ⟨hlater, hfound⟩ := ih h
    exact ⟨by omega, hfound⟩
  | case2 index reached hreached hle =>
    rw [stepForward?_of_eq_some hforward hreached, if_neg hle] at h
    cases h
    exact ⟨Nat.le_refl _, reached, hreached, Instant.not_le.1 hle⟩
  | case3 index hnone =>
    rw [stepForward?_of_eq_none hforward hnone] at h
    cases h

namespace Candidates

/-- The first candidate of a step is one or more steps from the start, after the time and before
the limit. -/
theorem mem_instants_of_next?_ofStep {rest : Candidates}
    (h : (ofStep s start time stop).next? = some (i, rest)) : i ∈ instants s start time stop := by
  obtain ⟨index, hindex, hshown⟩ := Option.bind_eq_some_iff.1 h
  obtain ⟨reached, hreached, hpair⟩ := Option.map_eq_some_iff.1 hshown
  obtain ⟨hnth, hbefore⟩ := Option.filter_eq_some_iff.1 hreached
  cases hpair
  simp only [ofStep] at hindex
  split at hindex
  case isTrue hforward =>
    obtain ⟨hlater, found, hfound, hafter⟩ := stepForward?_eq_some hforward hindex
    have hpos := one_le_stepBack s start time (s.estimate start time)
    have hsame : found = i := Option.some.inj (hfound.symm.trans hnth)
    rw [hsame] at hafter
    exact ⟨⟨index, by omega, hnth⟩, hafter, isBefore_iff.1 hbefore⟩
  case isFalse => cases hindex

end Candidates

/-- The candidates of each of some intervals, as they are merged. -/
def candidatesOf (intervals : List Interval) (start time : Instant) (stop : Option Instant) :
    List Candidates :=
  intervals.map fun e => Candidates.ofInterval e start time stop

/-- The first candidates are all past the query, and none is past the limit. -/
theorem lt_and_le_of_mem_candidatesOf {intervals : List Interval} :
    ∀ c ∈ candidatesOf intervals start time stop, ∀ i rest, c.next? = some (i, rest) →
      time < i ∧ ∀ limit ∈ stop, i ≤ limit := by
  intro c hc i rest hnext
  obtain ⟨e, -, rfl⟩ := List.mem_map.1 hc
  obtain ⟨-, hafter, hbefore⟩ := Candidates.mem_instants_of_next?_ofStep hnext
  exact ⟨hafter, fun limit hlimit => Instant.le_of_lt (hbefore limit hlimit)⟩

theorem intervalsFollowing_eq_earliest (intervals : List Interval) (time start : Instant)
    (stop : Option Instant) :
    intervalsFollowing intervals time start stop =
      earliest (intervals.map fun e =>
        (Candidates.ofInterval e start time stop).next?.map Prod.fst) := by
  have hmerge := merge_eq_of_first (candidatesOf intervals start time stop)
    lt_and_le_of_mem_candidatesOf
  have hfound := congrArg Merged.found hmerge
  simp only [candidatesOf, List.map_map] at hfound
  exact hfound

/-- One round decides, and each of the intervals is asked once in it. -/
theorem mergeRounds_candidatesOf (intervals : List Interval) (start time : Instant)
    (stop : Option Instant) (rounds : Nat) :
    mergeRounds Candidates.next? time stop (rounds + 1)
        ((candidatesOf intervals start time stop).map fun c => { state := c }) =
      ⟨intervalsFollowing intervals time start stop, intervals.map fun _ => 1⟩ := by
  rw [mergeRounds_succ _ lt_and_le_of_mem_candidatesOf, intervalsFollowing_eq_earliest]
  simp only [candidatesOf, List.map_map]
  rfl

/-- Intervals and others together step to the earlier of the instants that the two step to. -/
theorem intervalsFollowing_append (intervals others : List Interval) (time start : Instant)
    (stop : Option Instant) :
    intervalsFollowing (intervals ++ others) time start stop =
      earlier (intervalsFollowing intervals time start stop)
        (intervalsFollowing others time start stop) := by
  simp only [intervalsFollowing_eq_earliest, List.map_append, earliest_append]

namespace Recurrence

theorem following_withEvery (r : Recurrence) (intervals : List Interval) (time : Instant) :
    (r.withEvery intervals).following time =
      if r.stopInstant?.any (· < time) then none
      else if time < r.start then momentFollowing r.start time
      else intervalsFollowing intervals time r.start r.stopInstant? :=
  rfl

/-- A recurrence on intervals and others occurs when either of the recurrences on the two does: all
three have the same start and the same end. -/
theorem following_withEvery_append (r : Recurrence) (intervals others : List Interval)
    (time : Instant) :
    (r.withEvery (intervals ++ others)).following time =
      earlier ((r.withEvery intervals).following time) ((r.withEvery others).following time) := by
  simp only [following_withEvery]
  by_cases hover : r.stopInstant?.any (· < time) = true
  · simp only [hover, if_true]
    rfl
  · by_cases hbefore : time < r.start
    · simp only [hover, hbefore, if_true, if_false, earlier_self, Bool.false_eq_true]
    · simp only [hover, hbefore, if_false, intervalsFollowing_append, Bool.false_eq_true]

end Recurrence

end Almanac.Occurrence

import Almanac.Proofs.Occurrence.Intervals

/-!
The next occurrence of a recurrence is the earliest instant after the query at which it is due,
wherever the query lies.
-/

namespace Almanac.Occurrence

open Calendar Period

namespace Recurrence

/-- The instants at which a recurrence on these intervals is due: its start, and every instant
before its end that steps of one of the intervals lead to. -/
def dueAt (r : Recurrence) (intervals : List Interval) : Set Instant :=
  {i | i = r.start ∨
    ∃ e ∈ intervals, ∃ k, 1 ≤ k ∧ e.step.Reaches r.start k i ∧ ∀ stop ∈ r.stopInstant?, i < stop}

/-- The occurrences after `time`: the due instants after it of what recurs. What happens once
occurs until the second of its start is over, unless its end has come before. -/
def occurrencesAfter (r : Recurrence) (time : Instant) : Set Instant :=
  match r.every with
  | some intervals => {i | i ∈ r.dueAt intervals ∧ time < i}
  | none => {i | i = r.start ∧ time.wholeSecond ≤ r.start ∧ ∀ stop ∈ r.stopInstant?, time ≤ stop}

/-- The start lies before the end if there is one and not in a leap second, and no interval mixes
parts of fixed length with parts that follow the calendar. -/
structure IsRegular (r : Recurrence) : Prop where
  start_lt_stop : ∀ stop ∈ r.stopInstant?, r.start < stop
  isUniform : ∀ intervals ∈ r.every, ∀ e ∈ intervals, e.IsUniform
  start_not_isLeap : ¬ r.start.IsLeap

instance (r : Recurrence) : Decidable r.IsRegular :=
  decidable_of_iff ((∀ stop ∈ r.stopInstant?, r.start < stop) ∧
      (∀ intervals ∈ r.every, ∀ e ∈ intervals, e.IsUniform) ∧ ¬ r.start.IsLeap)
    ⟨fun ⟨hbefore, huniform, hleap⟩ => ⟨hbefore, huniform, hleap⟩,
      fun ⟨hbefore, huniform, hleap⟩ => ⟨hbefore, huniform, hleap⟩⟩

variable {r : Recurrence} {intervals : List Interval} {i : Instant}

theorem start_le_of_mem_dueAt (hi : i ∈ r.dueAt intervals) : r.start ≤ i := by
  rcases hi with rfl | ⟨e, _, k, _, hreached, _⟩
  · exact Instant.le_refl _
  · exact hreached.start_le e.step_seconds_nonneg

theorem IsRegular.lt_stop_of_mem_dueAt (h : r.IsRegular) (hi : i ∈ r.dueAt intervals) :
    ∀ stop ∈ r.stopInstant?, i < stop := by
  rcases hi with rfl | ⟨_, _, _, _, _, hbefore⟩
  · exact h.start_lt_stop
  · exact hbefore

theorem IsRegular.not_isLeap_of_mem_dueAt (h : r.IsRegular) (hi : i ∈ r.dueAt intervals) :
    ¬ i.IsLeap := by
  rcases hi with rfl | ⟨_, _, _, _, hreached, _⟩
  · exact h.start_not_isLeap
  · exact hreached.not_isLeap h.start_not_isLeap

theorem not_any_lt_iff {time : Instant} :
    ¬ r.stopInstant?.any (· < time) = true ↔ ∀ stop ∈ r.stopInstant?, time ≤ stop := by
  simp only [Instant.any_lt_iff, not_exists, not_and, Instant.not_lt]

end Recurrence

/-- Before its second is over a moment is still to come. -/
theorem momentFollowing_of_lt {moment time : Instant} (hlt : time < moment) :
    momentFollowing moment time = some moment := by
  have hle := Instant.le_trans time.wholeSecond_le (Instant.le_of_lt hlt)
  rw [momentFollowing, if_pos hle]

/-- Before its start, and unless its end has come before that, a recurrence occurs next at its
start, whatever its intervals are. -/
theorem Recurrence.following_of_lt_start {r : Recurrence} {time : Instant} (hlt : time < r.start)
    (hbefore : ∀ stop ∈ r.stopInstant?, time ≤ stop) : r.following time = some r.start := by
  rw [following, if_neg (not_any_lt_iff.2 hbefore), if_pos hlt, momentFollowing_of_lt hlt]

/-- From the start on the intervals give the earliest candidate of any of them. -/
theorem isFirst_intervalsFollowing {intervals : List Interval} {time start : Instant}
    (stop : Option Instant) (hstart : ¬ start.IsLeap)
    (hwithin : ∀ e ∈ intervals, ¬ e.step.Overshoots start time) (hle : start ≤ time) :
    IsFirst {i | ∃ e ∈ intervals, i ∈ Candidates.instants e.step start time stop}
      (intervalsFollowing intervals time start stop) := by
  have hfirst : ∀ e ∈ intervals, IsFirst (Candidates.instants e.step start time stop)
      ((Candidates.ofInterval e start time stop).next?.map Prod.fst) := fun e he =>
    (Candidates.enumerates_ofInterval_of_not_overshoots stop hstart (hwithin e he)
      hle).isFirst_next?
  rw [intervalsFollowing_eq_earliest]
  exact isFirst_earliest intervals _ _ hfirst

/-- As long as the end has not come the next occurrence of what recurs is the earliest due instant
after the query, even if the end lies before the start. -/
theorem isFirst_following_of_not_over {r : Recurrence} {intervals : List Interval}
    {time : Instant} (hevery : r.every = some intervals) (hstart : ¬ r.start.IsLeap)
    (hwithin : ∀ e ∈ intervals, ¬ e.step.Overshoots r.start time)
    (hover : ¬ r.stopInstant?.any (· < time) = true) :
    IsFirst {i | i ∈ r.dueAt intervals ∧ time < i} (r.following time) := by
  unfold Recurrence.following
  rw [if_neg hover]
  split
  case isTrue hlt =>
    rw [momentFollowing_of_lt hlt]
    exact ⟨⟨Or.inl rfl, hlt⟩, fun i hi => Recurrence.start_le_of_mem_dueAt hi.1⟩
  case isFalse hnotLt =>
    have hle := Instant.not_lt.1 hnotLt
    rw [hevery]
    refine (isFirst_intervalsFollowing r.stopInstant? hstart hwithin hle).congr ?_
    intro i
    constructor
    · rintro ⟨e, he, hi⟩
      obtain ⟨⟨k, hk, hreached⟩, hafter, hbefore⟩ :=
        (Candidates.mem_instants_iff e.step_seconds_nonneg hstart).1 hi
      exact ⟨Or.inr ⟨e, he, k, hk, hreached, hbefore⟩, hafter⟩
    · rintro ⟨rfl | ⟨e, he, k, hk, hreached, hbefore⟩, hafter⟩
      · exact absurd hafter hnotLt
      · exact ⟨e, he, (Candidates.mem_instants_iff e.step_seconds_nonneg hstart).2
          ⟨⟨k, hk, hreached⟩, hafter, hbefore⟩⟩

/-- Once the end has come there are no occurrences. -/
theorem following_of_over {r : Recurrence} {time : Instant}
    (hover : r.stopInstant?.any (· < time) = true) : r.following time = none := by
  unfold Recurrence.following
  rw [if_pos hover]

/-- The next occurrence of what recurs is the earliest due instant after the query, wherever the
estimates stay in the calendar. -/
theorem isFirst_following_of_not_overshoots {r : Recurrence} {intervals : List Interval}
    {time : Instant} (hregular : r.IsRegular) (hevery : r.every = some intervals)
    (hwithin : ∀ e ∈ intervals, ¬ e.step.Overshoots r.start time) :
    IsFirst {i | i ∈ r.dueAt intervals ∧ time < i} (r.following time) := by
  by_cases hover : r.stopInstant?.any (· < time) = true
  · obtain ⟨stop, hstop, hlt⟩ := Instant.any_lt_iff.1 hover
    rw [following_of_over hover]
    apply isFirst_none
    rintro i ⟨hi, hafter⟩
    have hbefore := hregular.lt_stop_of_mem_dueAt hi stop hstop
    exact Instant.not_lt.2 (Instant.le_of_lt hlt) (Instant.lt_trans hafter hbefore)
  · exact isFirst_following_of_not_over hevery hregular.start_not_isLeap hwithin hover

theorem isFirst_following_of_every_eq_some {r : Recurrence} {intervals : List Interval}
    {time : Instant} (hregular : r.IsRegular) (hevery : r.every = some intervals)
    (htime : ¬ time.IsLeap) :
    IsFirst {i | i ∈ r.dueAt intervals ∧ time < i} (r.following time) :=
  isFirst_following_of_not_overshoots hregular hevery fun e he =>
    (hregular.isUniform intervals hevery e he).not_overshoots hregular.start_not_isLeap htime

/-- What happens once is asked about its start alone, before the start and after it. -/
theorem isFirst_following_of_every_eq_none {r : Recurrence} {time : Instant}
    (hevery : r.every = none) : IsFirst (r.occurrencesAfter time) (r.following time) := by
  have hstart : (if time < r.start then momentFollowing r.start time
      else momentFollowing r.start time) = momentFollowing r.start time := ite_self _
  unfold Recurrence.following Recurrence.occurrencesAfter
  simp only [hevery, hstart]
  split
  case isTrue hover =>
    obtain ⟨stop, hstop, hlt⟩ := Instant.any_lt_iff.1 hover
    apply isFirst_none
    rintro i ⟨_, _, hbefore⟩
    exact Instant.not_lt.2 (hbefore stop hstop) hlt
  case isFalse hnotOver =>
    have hbefore := Recurrence.not_any_lt_iff.1 hnotOver
    unfold momentFollowing
    split
    case isTrue hdue =>
      refine ⟨⟨rfl, hdue, hbefore⟩, ?_⟩
      rintro i ⟨rfl, _, _⟩
      exact Instant.le_refl _
    case isFalse hlate =>
      apply isFirst_none
      rintro i ⟨rfl, hdue, _⟩
      exact hlate hdue

/-- What recurs occurs next at the least due instant after the query, and not any more exactly if
nothing is due after it. -/
theorem following_eq_least_due {r : Recurrence} {intervals : List Interval} {time : Instant}
    (hregular : r.IsRegular) (hevery : r.every = some intervals) (htime : ¬ time.IsLeap) :
    (∀ i, r.following time = some i ↔ IsLeast {j | j ∈ r.dueAt intervals ∧ time < j} i) ∧
      (r.following time = none ↔ ∀ j ∈ r.dueAt intervals, ¬ time < j) := by
  have hfirst := isFirst_following_of_every_eq_some hregular hevery htime
  refine ⟨fun i => hfirst.eq_some_iff, hfirst.eq_none_iff.trans ?_⟩
  rw [Set.eq_empty_iff_forall_notMem]
  exact ⟨fun hnone j hj hafter => hnone j ⟨hj, hafter⟩, fun hnone j hj => hnone j hj.1 hj.2⟩

/-- Monthly from the end of January 2024 on: after the leap day comes the end of March. -/
theorem following_end_of_month :
    let r : Recurrence :=
      { start := Instant.midnight 19753 (by decide)
        stop := some (.moment (.midnight 20000 (by decide)))
        every := some [.amount ⟨1, .month⟩] }
    let time := Instant.midnight 19782 (by decide)
    r.IsRegular ∧ ¬ time.IsLeap ∧
      IsLeast {j | j ∈ r.dueAt [.amount ⟨1, .month⟩] ∧ time < j}
        (.midnight 19813 (by decide)) := by
  intro r time
  have hregular : r.IsRegular := by decide
  have htime : ¬ time.IsLeap := by decide
  refine ⟨hregular, htime, ?_⟩
  exact ((following_eq_least_due hregular rfl htime).1 _).1 (by decide +kernel)

end Almanac.Occurrence

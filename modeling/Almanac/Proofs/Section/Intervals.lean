import Almanac.Proofs.Occurrence.Intervals
import Almanac.Proofs.Section.Join

/-!
Intervals as alternatives. It is all the same whether one event recurs on intervals and others
together, or two events with one start recur on the two.
-/

namespace Almanac.Section

open Calendar Period Occurrence

variable {r left right : Section} {intervals others : List Interval}

/-- An event on either of two lists of intervals occurs when the event on the one or the event on
the other does. -/
theorem exists_and_or_eq_ok {start : Recurrence} (hr : r.recurrence? = some start)
    (hleft : left.alternatives? = some intervals) (hright : right.alternatives? = some others) :
    ∃ either together first second apart,
      left.or right = .ok either ∧ r.and either = .ok together ∧
      r.and left = .ok first ∧ r.and right = .ok second ∧ first.or second = .ok apart ∧
      ∀ t, together.following t = apart.following t := by
  refine ⟨_, _, _, _, _, or_eq_intervals hleft hright, and_eq_recurrence hr rfl,
    and_eq_recurrence hr hleft, and_eq_recurrence hr hright, or_eq_group rfl rfl, fun t => ?_⟩
  calc
    (recurrence (start.withEvery (intervals ++ others))).following t
    _ = earlier ((start.withEvery intervals).following t) ((start.withEvery others).following t) :=
      start.following_withEvery_append intervals others t
    _ = (group [⟨start.withEvery intervals, []⟩, ⟨start.withEvery others, []⟩]).following t :=
      (earliest_pair _ _).symm

/-- Intervals are merged in one round, in which each is asked once, whatever their steps are and
wherever the start, the query and the limit lie: more rounds would change nothing. So intervals and
others together step to the earlier of the instants that the two step to, and an event on both
occurs like two events, each on one of them. -/
theorem intervals_side_by_side (intervals others : List Interval) (start time : Instant)
    (stop : Option Instant) :
    intervalsFollowing (intervals ++ others) time start stop =
      earlier (intervalsFollowing intervals time start stop)
        (intervalsFollowing others time start stop) ∧
    (intervalsFollowing (intervals ++ others) time start stop = none ↔
      intervalsFollowing intervals time start stop = none ∧
        intervalsFollowing others time start stop = none) ∧
    (∀ rounds, mergeRounds Candidates.next? time stop (rounds + 1)
        ((candidatesOf intervals start time stop).map fun c => { state := c }) =
      ⟨intervalsFollowing intervals time start stop, intervals.map fun _ => 1⟩) ∧
    ∀ r left right : Section, r.kind ∈ [.moment, .recurrence] →
      left.kind ∈ [.interval, .intervals] → right.kind ∈ [.interval, .intervals] →
      ∃ either together first second apart,
        left.or right = .ok either ∧ r.and either = .ok together ∧
        r.and left = .ok first ∧ r.and right = .ok second ∧ first.or second = .ok apart ∧
        ∀ t, together.following t = apart.following t := by
  have happend := intervalsFollowing_append intervals others time start stop
  refine ⟨happend, ?_, fun rounds => ?_, fun r left right hr hleft hright => ?_⟩
  · rw [happend]
    exact earlier_eq_none_iff
  · exact mergeRounds_candidatesOf intervals start time stop rounds
  · obtain ⟨start, hstart⟩ := exists_recurrence?_eq_some hr
    obtain ⟨alternatives, halternatives⟩ := exists_alternatives?_eq_some hleft
    obtain ⟨further, hfurther⟩ := exists_alternatives?_eq_some hright
    exact exists_and_or_eq_ok hstart halternatives hfurther

/-- Every week, or every month and a day: after four weeks the second of February comes next, by the
one event on all intervals and by the two events. An interval of no days at all is left out. -/
theorem intervals_side_by_side_weekly_or_mixed :
    let r := moment (.midnight 0 (by decide))
    let left := interval (.amount ⟨1, .week⟩)
    let right := Section.intervals [.amount ⟨0, .day⟩, .duration { months := 1, days := 1 }]
    let time := Instant.midnight 28 (by decide)
    r.kind ∈ [.moment, .recurrence] ∧ left.kind ∈ [.interval, .intervals] ∧
      right.kind ∈ [.interval, .intervals] ∧
      ∃ either together first second apart,
        left.or right = .ok either ∧ r.and either = .ok together ∧
        r.and left = .ok first ∧ r.and right = .ok second ∧ first.or second = .ok apart ∧
        together.following time = some (.midnight 32 (by decide)) ∧
        apart.following time = some (.midnight 32 (by decide)) := by
  intro r left right time
  have hr : r.kind ∈ [.moment, .recurrence] := by decide
  have hleft : left.kind ∈ [.interval, .intervals] := by decide
  have hright : right.kind ∈ [.interval, .intervals] := by decide
  obtain ⟨-, -, -, hjoins⟩ := intervals_side_by_side [] [] time time none
  obtain ⟨either, together, first, second, apart, hor, htogether, hfirst, hsecond, hapart, hsame⟩ :=
    hjoins r left right hr hleft hright
  have hnext : together.following time = some (.midnight 32 (by decide)) := by
    cases hor
    cases htogether
    decide +kernel
  exact ⟨hr, hleft, hright, either, together, first, second, apart, hor, htogether, hfirst, hsecond,
    hapart, hnext, (hsame time).symm.trans hnext⟩

end Almanac.Section

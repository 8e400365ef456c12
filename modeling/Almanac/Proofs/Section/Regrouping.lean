import Almanac.Proofs.Filter
import Almanac.Proofs.Occurrence.Intervals
import Almanac.Proofs.Section.Producers
import Almanac.Reduction.Simplify

/-!
Joins in another grouping and in another order. Alternatives in a row are the same section however
they are grouped; in the other order they answer alike; and what `and` puts together comes down to
the same section in either order.
-/

namespace Almanac.Section

open Calendar Period Occurrence

variable {a b c ab bc left right joined swapped : Section} {members others : List Filtered}
  {intervals further : List Interval}

/-- If three alternatives may be grouped in two ways, all of them are intervals or all of them
start. A start with a filter or with intervals makes a group too, but with that on the right of
another start there is only one grouping. -/
theorem eq_of_or_regrouped (hbc : b.or c = .ok bc) (hleft : a.or bc = .ok left)
    (hab : a.or b = .ok ab) (hright : ab.or c = .ok right) : left = right := by
  -- Whatever made a group of the first two, the third starts, and so did the second.
  have hgroup (members : List Filtered) (hmembers : ab = group members) : left = right := by
    subst hmembers
    obtain ⟨third, hc, rfl⟩ := or_of_group hright
    obtain ⟨second, hb, rfl⟩ := or_of_members? hc hbc
    obtain ⟨first, ha, rfl⟩ := or_of_members? rfl hleft
    obtain ⟨_, ha', hmembers⟩ := or_of_members? hb hab
    cases ha.symm.trans ha'
    cases hmembers
    exact congrArg group (List.append_assoc first second third).symm
  rcases or_eq_ok hab with ⟨first, second, ha, hb, rfl⟩ | ⟨_, _, -, -, hmembers⟩ |
    ⟨_, _, -, -, -, hmembers⟩
  · obtain ⟨third, hc, rfl⟩ := or_of_alternatives? rfl hright
    obtain ⟨_, hc', rfl⟩ := or_of_alternatives? hb hbc
    cases hc.symm.trans hc'
    obtain ⟨_, hboth, rfl⟩ := or_of_alternatives? ha hleft
    cases hboth
    exact congrArg Section.intervals (List.append_assoc first second third).symm
  · exact hgroup _ hmembers
  · exact hgroup _ hmembers

/-- Alternatives that may stand in either order are both intervals, or both start. -/
theorem or_swapped (h : a.or b = .ok joined) (hswapped : b.or a = .ok swapped) :
    (∃ intervals further, joined = .intervals (intervals ++ further) ∧
      swapped = .intervals (further ++ intervals)) ∨
    ∃ members others, joined = group (members ++ others) ∧ swapped = group (others ++ members) := by
  rcases or_eq_ok h with ⟨intervals, further, ha, hb, rfl⟩ | ⟨members, others, ha, hb, rfl⟩ |
    ⟨r, _, ha, hb, -, -⟩
  · obtain ⟨_, ha', rfl⟩ := or_of_alternatives? hb hswapped
    cases ha.symm.trans ha'
    exact .inl ⟨intervals, further, rfl, rfl⟩
  · obtain ⟨_, hb', rfl⟩ := or_of_members? ha hswapped
    cases hb.symm.trans hb'
    exact .inr ⟨members, others, rfl, rfl⟩
  · obtain ⟨_, hb', -⟩ := or_of_members? (members?_of_recurrence?_eq_some ha) hswapped
    cases hb.symm.trans hb'

theorem answersAlike_group_append (members others : List Filtered) :
    (group (members ++ others)).AnswersAlike (group (others ++ members)) := by
  have hlike := answersLike_group (members ++ others)
  have hlike' := answersLike_group (others ++ members)
  constructor
  · intro time
    rw [hlike.following, hlike'.following, List.map_append, List.map_append, earliest_append,
      earliest_append, earlier_comm]
  · intro time
    rw [hlike.nextAdmitted, hlike'.nextAdmitted, List.map_append, List.map_append,
      Answer.earliest_append, Answer.earliest_append, Answer.earlier_comm]
  · intro i
    rw [hlike.admits, hlike'.admits, List.any_append, List.any_append, Bool.or_comm]

/-- Intervals alone never occur, and admit everything. -/
theorem answersAlike_intervals (intervals further : List Interval) :
    (Section.intervals intervals).AnswersAlike (.intervals further) where
  following _ := rfl
  nextAdmitted _ := rfl
  admits _ := rfl

theorem answersAlike_or_swapped (h : a.or b = .ok joined) (hswapped : b.or a = .ok swapped) :
    joined.AnswersAlike swapped := by
  rcases or_swapped h hswapped with ⟨_, _, rfl, rfl⟩ | ⟨members, others, rfl, rfl⟩
  · exact answersAlike_intervals _ _
  · exact answersAlike_group_append members others

theorem intervalsFollowing_or_swapped (ha : a.alternatives? = some intervals)
    (hb : b.alternatives? = some further) (h : a.or b = .ok joined)
    (hswapped : b.or a = .ok swapped) :
    ∃ both others, joined = .intervals both ∧ swapped = .intervals others ∧
      ∀ time start stop,
        intervalsFollowing both time start stop = intervalsFollowing others time start stop := by
  cases h.symm.trans (or_eq_intervals ha hb)
  cases hswapped.symm.trans (or_eq_intervals hb ha)
  refine ⟨_, _, rfl, rfl, fun time start stop => ?_⟩
  rw [intervalsFollowing_append, intervalsFollowing_append, earlier_comm]

/-- What `and` makes in either order is the same without shorthand. -/
theorem simplify_and_swapped (h : a.and b = .ok joined) (hswapped : b.and a = .ok swapped)
    (ctx : Context) :
    ∃ simple, joined.simplify ctx = pure simple ∧ swapped.simplify ctx = pure simple := by
  unfold Section.and at h
  split at h
  case h_9 f g =>
    cases h
    cases hswapped
    exact ⟨_, rfl, congrArg (fun both => pure (filter both)) (g.union_comm f)⟩
  case h_1 | h_4 | h_7 | h_8 | h_10 | h_11 => cases h; cases hswapped; exact ⟨_, rfl, rfl⟩
  case h_14 | h_15 =>
    cases h.symm.trans hswapped
    obtain ⟨t, rfl⟩ := exists_of_momentAt_eq_ok h
    exact ⟨_, rfl, rfl⟩
  case h_16 => cases h
  -- Intervals stand on the right only.
  all_goals cases hswapped

/-- How joins are grouped and in which order they are written does not matter where both ways are
defined. Alternatives make the same section in either grouping, and answer alike in either order, as
lists of intervals too. What starts, filters and days with a time of day make the same section by
`and` in either order once it is simplified. -/
theorem joins_regrouped_and_swapped (a b c : Section) :
    (∀ bc ab left right, b.or c = .ok bc → a.or bc = .ok left → a.or b = .ok ab →
      ab.or c = .ok right → left = right) ∧
    (∀ joined swapped, a.or b = .ok joined → b.or a = .ok swapped →
      (∀ time, joined.following time = swapped.following time ∧
        joined.nextAdmitted time = swapped.nextAdmitted time ∧
        joined.admits time = swapped.admits time) ∧
      (a.kind ∈ [.interval, .intervals] → b.kind ∈ [.interval, .intervals] →
        ∃ both others, joined = .intervals both ∧ swapped = .intervals others ∧
          ∀ time start stop,
            intervalsFollowing both time start stop = intervalsFollowing others time start stop)) ∧
    (∀ joined swapped, a.and b = .ok joined → b.and a = .ok swapped → ∀ ctx,
      ∃ simple, joined.simplify ctx = pure simple ∧ swapped.simplify ctx = pure simple) := by
  refine ⟨?grouping, ?order, ?both⟩
  case grouping =>
    intro bc ab left right hbc hleft hab hright
    exact eq_of_or_regrouped hbc hleft hab hright
  case order =>
    intro joined swapped h hswapped
    have halike := answersAlike_or_swapped h hswapped
    refine ⟨fun time => ⟨halike.following time, halike.nextAdmitted time, halike.admits time⟩, ?_⟩
    intro ha hb
    obtain ⟨intervals, hintervals⟩ := exists_alternatives?_eq_some ha
    obtain ⟨further, hfurther⟩ := exists_alternatives?_eq_some hb
    exact intervalsFollowing_or_swapped hintervals hfurther h hswapped
  case both =>
    intro joined swapped h hswapped ctx
    exact simplify_and_swapped h hswapped ctx

/-- A moment, every day and Mondays of every week: in either grouping they are one group of three.
Moment and days come next on the same day in either order, and so do days and weeks. Days and a
filter become one section. -/
theorem joins_regrouped_and_swapped_once_or_daily :
    let start := Instant.midnight 0 (by decide)
    let days := Interval.amount ⟨1, .day⟩
    let mondays : Filter := { weekdays := .ofList [.monday] }
    let once := moment start
    let daily := recurrence { start := start, every := some [days] }
    let weekly := group [⟨{ start := start, every := some [.amount ⟨1, .week⟩] }, [mondays]⟩]
    let ctx : Context := { registry := .empty, now := start }
    (∃ bc ab three, daily.or weekly = .ok bc ∧ once.or bc = .ok three ∧ once.or daily = .ok ab ∧
      ab.or weekly = .ok three) ∧
    (∃ joined swapped, once.or daily = .ok joined ∧ daily.or once = .ok swapped ∧
      joined.following start = some start ∧ swapped.following start = some start) ∧
    (∃ both others, (interval days).or (.intervals [.amount ⟨1, .week⟩]) = .ok (.intervals both) ∧
      (Section.intervals [.amount ⟨1, .week⟩]).or (interval days) = .ok (.intervals others) ∧
      intervalsFollowing both start start none = some (.midnight 1 (by decide)) ∧
      intervalsFollowing others start start none = some (.midnight 1 (by decide))) ∧
    ∃ joined swapped simple, daily.and (filter mondays) = .ok joined ∧
      (filter mondays).and daily = .ok swapped ∧ joined.simplify ctx = pure simple ∧
      swapped.simplify ctx = pure simple := by
  intro start days mondays once daily weekly ctx
  obtain ⟨hgrouping, horder, -⟩ := joins_regrouped_and_swapped once daily weekly
  obtain ⟨-, hintervals, -⟩ :=
    joins_regrouped_and_swapped (interval days) (.intervals [.amount ⟨1, .week⟩]) once
  obtain ⟨-, -, hboth⟩ := joins_regrouped_and_swapped daily (filter mondays) once
  refine ⟨?_, ?_, ?_, ?_⟩
  · have hthree := hgrouping _ _ _ _ rfl rfl rfl rfl
    exact ⟨_, _, _, rfl, rfl, rfl, congrArg Except.ok hthree.symm⟩
  · obtain ⟨joined, hjoined⟩ : ∃ joined, once.or daily = .ok joined := ⟨_, rfl⟩
    obtain ⟨hsame, -⟩ := horder joined _ hjoined rfl
    have hnext : joined.following start = some start := by
      cases hjoined
      decide +kernel
    exact ⟨joined, _, hjoined, rfl, hnext, (hsame start).1.symm.trans hnext⟩
  · obtain ⟨-, hsame⟩ := hintervals _ _ rfl rfl
    obtain ⟨both, others, hjoined, hswapped, hsame⟩ := hsame (by decide) (by decide)
    have hnext : intervalsFollowing both start start none = some (.midnight 1 (by decide)) := by
      cases hjoined
      decide +kernel
    exact ⟨both, others, congrArg Except.ok hjoined, congrArg Except.ok hswapped, hnext,
      (hsame start start none).symm.trans hnext⟩
  · obtain ⟨simple, hjoined, hswapped⟩ := hboth _ _ rfl rfl ctx
    exact ⟨_, _, simple, rfl, rfl, hjoined, hswapped⟩

end Almanac.Section

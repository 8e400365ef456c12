import Almanac.Proofs.Occurrence.Answer
import Almanac.Section.Join
import Almanac.Section.Search

/-!
What a joined section answers. A moment, a recurrence and a group each answer like a list of
members; `or` puts two such lists one behind the other, and `and` gives a filter to every member.
Conversely, alternatives show what they have been made of.
-/

namespace Almanac.Occurrence

open Calendar

theorem Recurrence.following_once (moment time : Instant) :
    (Recurrence.once moment).following time = momentFollowing moment time :=
  ite_self (momentFollowing moment time)

namespace Filtered

theorem nextAdmitted_of_filters_eq_nil (r : Recurrence) (time : Instant) :
    nextAdmitted ⟨r, []⟩ time = .ok (r.following time) :=
  firstAdmitted_of_forall_admits (fun _ => rfl) time

theorem admits_withFilter (s : Filtered) (f : Filter) (i : Instant) :
    (s.withFilter f).admits i = (s.admits i && f.admits i) := by
  unfold admits withFilter
  rw [List.all_append]
  simp only [List.all_cons, List.all_nil, Bool.and_true]

end Filtered

end Almanac.Occurrence

namespace Almanac.Section

open Calendar Period Occurrence

/-- A section answers like its members when each of them is searched on its own: it occurs when the
earliest of them does, and admits what any of them admits. -/
structure AnswersLike (s : Section) (members : List Filtered) : Prop where
  following : ∀ time, s.following time = earliest (members.map (·.following time))
  nextAdmitted : ∀ time, s.nextAdmitted time = .earliest (members.map (·.nextAdmitted time))
  admits : ∀ i, s.admits i = members.any (·.admits i)

/-- What two sections answer alike at every instant. -/
structure AnswersAlike (s other : Section) : Prop where
  following : ∀ time, s.following time = other.following time
  nextAdmitted : ∀ time, s.nextAdmitted time = other.nextAdmitted time
  admits : ∀ i, s.admits i = other.admits i

/-- The members of a section that may stand on either side of `or`. -/
def members? : Section → Option (List Filtered)
  | group members => some members
  | s => s.recurrence?.map fun r => [⟨r, []⟩]

variable {s left right joined : Section} {members others : List Filtered} {r : Recurrence}
  {intervals further : List Interval}

theorem exists_members?_eq_some (h : s.kind ∈ [.moment, .recurrence, .group]) :
    ∃ members, s.members? = some members := by
  cases s with
  | moment i => exact ⟨[⟨.once i, []⟩], rfl⟩
  | recurrence r => exact ⟨[⟨r, []⟩], rfl⟩
  | group members => exact ⟨members, rfl⟩
  | _ => simp only [kind, List.mem_cons, List.not_mem_nil, reduceCtorEq, or_self] at h

theorem exists_recurrence?_eq_some (h : s.kind ∈ [.moment, .recurrence]) :
    ∃ r, s.recurrence? = some r := by
  cases s with
  | moment i => exact ⟨.once i, rfl⟩
  | recurrence r => exact ⟨r, rfl⟩
  | _ => simp only [kind, List.mem_cons, List.not_mem_nil, reduceCtorEq, or_self] at h

theorem exists_alternatives?_eq_some (h : s.kind ∈ [.interval, .intervals]) :
    ∃ intervals, s.alternatives? = some intervals := by
  cases s with
  | interval i => exact ⟨[i], rfl⟩
  | intervals alternatives => exact ⟨alternatives, rfl⟩
  | _ => simp only [kind, List.mem_cons, List.not_mem_nil, reduceCtorEq, or_self] at h

theorem members?_of_recurrence?_eq_some (h : s.recurrence? = some r) :
    s.members? = some [⟨r, []⟩] := by
  cases s with
  | moment | recurrence => cases h; rfl
  | _ => cases h

/-- Intervals alone name no start. -/
theorem members?_of_alternatives?_eq_some (h : s.alternatives? = some intervals) :
    s.members? = none := by
  cases s with
  | interval | intervals => rfl
  | _ => cases h

theorem answersLike_group (members : List Filtered) : (group members).AnswersLike members :=
  ⟨fun _ => rfl, fun _ => rfl, fun _ => rfl⟩

theorem answersLike_filtered (m : Filtered) : (filtered m).AnswersLike [m] where
  following _ := (earliest_singleton _).symm
  nextAdmitted _ := (Answer.earliest_singleton _).symm
  admits _ := (Bool.or_false _).symm

theorem answersLike_recurrence (r : Recurrence) : (recurrence r).AnswersLike [⟨r, []⟩] where
  following _ := (earliest_singleton _).symm
  nextAdmitted _ := (Answer.earliest_singleton _).symm
  admits _ := rfl

theorem answersLike_moment (i : Instant) : (moment i).AnswersLike [⟨.once i, []⟩] where
  following time := by
    change momentFollowing i time = earliest [(Recurrence.once i).following time]
    rw [earliest_singleton, Recurrence.following_once]
  nextAdmitted time := by
    have hmoment : (moment i).nextAdmitted time = .ok (momentFollowing i time) :=
      firstAdmitted_of_forall_admits (fun _ => rfl) time
    have honce := Filtered.nextAdmitted_of_filters_eq_nil (.once i) time
    rw [Recurrence.following_once] at honce
    change _ = Answer.earliest [Filtered.nextAdmitted ⟨.once i, []⟩ time]
    rw [Answer.earliest_singleton, honce, hmoment]
  admits _ := rfl

theorem answersLike_of_members?_eq_some (h : s.members? = some members) :
    s.AnswersLike members := by
  cases s with
  | moment i => cases h; exact answersLike_moment i
  | recurrence r => cases h; exact answersLike_recurrence r
  | group members => cases h; exact answersLike_group _
  | _ => cases h

/-- Alternatives are the members of the one side and then those of the other. -/
theorem or_eq_group (hleft : left.members? = some members) (hright : right.members? = some others) :
    left.or right = .ok (.group (members ++ others)) := by
  cases left with
  | moment | recurrence | group =>
    cases right with
    | moment | recurrence | group => cases hleft; cases hright; rfl
    | _ => cases hright
  | _ => cases hleft

theorem or_eq_intervals (hleft : left.alternatives? = some intervals)
    (hright : right.alternatives? = some further) :
    left.or right = .ok (.intervals (intervals ++ further)) := by
  cases left with
  | interval | intervals =>
    cases right with
    | interval | intervals => cases hleft; cases hright; rfl
    | _ => cases hright
  | _ => cases hleft

/-- All that alternatives are made of: the intervals of two sides, the members of two sides, or a
start alone and what the other side makes of it. -/
theorem or_eq_ok (h : left.or right = .ok joined) :
    (∃ intervals further, left.alternatives? = some intervals ∧
      right.alternatives? = some further ∧ joined = .intervals (intervals ++ further)) ∨
    (∃ members others, left.members? = some members ∧ right.members? = some others ∧
      joined = group (members ++ others)) ∨
    ∃ r other, left.recurrence? = some r ∧ right.members? = none ∧
      alternative? r right = some other ∧ joined = group [⟨r, []⟩, other] := by
  unfold Section.or at h
  split at h
  case h_1 members others =>
    cases h
    exact .inr (.inl ⟨members, others, rfl, rfl, rfl⟩)
  case h_2 members _ =>
    split at h
    case h_1 r hr =>
      cases h
      exact .inr (.inl ⟨members, _, rfl, members?_of_recurrence?_eq_some hr, rfl⟩)
    case h_2 => cases h
  case h_3 members _ =>
    split at h
    case h_1 r hr =>
      cases h
      exact .inr (.inl ⟨_, members, members?_of_recurrence?_eq_some hr, rfl, rfl⟩)
    case h_2 => cases h
  case h_4 _ hright _ =>
    split at h
    case h_1 is others his hothers =>
      cases h
      exact .inl ⟨is, others, his, hothers, rfl⟩
    case h_2 =>
      split at h
      case h_1 => cases h
      case h_2 r hr =>
        split at h
        case h_1 other hother =>
          cases h
          cases hmembers : right.members? with
          | none => exact .inr (.inr ⟨r, other, hr, rfl, hother, rfl⟩)
          | some others =>
            refine .inr (.inl ⟨_, others, members?_of_recurrence?_eq_some hr, rfl, ?_⟩)
            cases right with
            | moment | recurrence => cases hmembers; cases hother; rfl
            | group members => exact absurd rfl (hright members)
            | _ => cases hmembers
        case h_2 => cases h

/-- Intervals are alternatives to intervals only. -/
theorem or_of_alternatives? (hleft : left.alternatives? = some intervals)
    (h : left.or right = .ok joined) :
    ∃ further, right.alternatives? = some further ∧ joined = .intervals (intervals ++ further) := by
  have hnone := members?_of_alternatives?_eq_some hleft
  rcases or_eq_ok h with ⟨_, further, hmine, hright, rfl⟩ | ⟨_, _, hmembers, -, -⟩ |
    ⟨r, _, hr, -, -, -⟩
  · cases hleft.symm.trans hmine
    exact ⟨further, hright, rfl⟩
  · cases hnone.symm.trans hmembers
  · cases hnone.symm.trans (members?_of_recurrence?_eq_some hr)

/-- Before what starts there stands something else that starts. -/
theorem or_of_members? (hright : right.members? = some others) (h : left.or right = .ok joined) :
    ∃ members, left.members? = some members ∧ joined = group (members ++ others) := by
  rcases or_eq_ok h with ⟨_, _, -, hfurther, -⟩ | ⟨members, _, hleft, hothers, rfl⟩ |
    ⟨_, _, -, hnone, -, -⟩
  · cases hright.symm.trans (members?_of_alternatives?_eq_some hfurther)
  · cases hright.symm.trans hothers
    exact ⟨members, hleft, rfl⟩
  · cases hright.symm.trans hnone

/-- A group goes on with what starts. -/
theorem or_of_group (h : (group members).or right = .ok joined) :
    ∃ others, right.members? = some others ∧ joined = group (members ++ others) := by
  rcases or_eq_ok h with ⟨_, _, hmine, -, -⟩ | ⟨_, others, hmembers, hright, rfl⟩ |
    ⟨_, _, hr, -, -, -⟩
  · cases hmine
  · cases hmembers
    exact ⟨others, hright, rfl⟩
  · cases hr

theorem exists_of_momentAt_eq_ok {d : Date} {c : ClockTime} (h : momentAt d c = .ok s) :
    ∃ t, s = moment (Instant.on d t) := by
  unfold momentAt at h
  split at h
  case h_1 t _ => cases h; exact ⟨t, rfl⟩
  case h_2 => cases h

/-- Both at once is something that starts, held back by filters or not, or a filter. -/
theorem kind_of_and_eq_ok (h : left.and right = .ok joined) :
    joined.kind ∈ [.moment, .recurrence, .filter, .filtered, .group] := by
  unfold Section.and at h
  split at h
  case h_14 | h_15 =>
    obtain ⟨t, rfl⟩ := exists_of_momentAt_eq_ok h
    simp [kind]
  case h_16 => cases h
  all_goals cases h; simp [kind, groupWithFilter]

/-- What starts recurs on the intervals that are put on it, in place of any that it had. -/
theorem and_eq_recurrence (hleft : left.recurrence? = some r)
    (hright : right.alternatives? = some intervals) :
    left.and right = .ok (.recurrence (r.withEvery intervals)) := by
  cases left with
  | moment | recurrence =>
    cases right with
    | interval | intervals => cases hleft; cases hright; rfl
    | _ => cases hright
  | _ => cases hleft

/-- A filter is put on every member. -/
theorem exists_and_filter_eq_ok (hmembers : s.members? = some members) (f : Filter) :
    ∃ held, s.and (.filter f) = .ok held ∧ held.AnswersLike (members.map (·.withFilter f)) := by
  cases s with
  | moment | recurrence =>
    cases hmembers
    exact ⟨_, rfl, answersLike_filtered _⟩
  | group members =>
    cases hmembers
    exact ⟨_, rfl, answersLike_group _⟩
  | _ => cases hmembers

theorem any_admits_withFilter (members : List Filtered) (f : Filter) (i : Instant) :
    (members.map (·.withFilter f)).any (·.admits i) = (members.any (·.admits i) && f.admits i) := by
  induction members with
  | nil => rfl
  | cons m rest ih =>
    simp only [List.map_cons, List.any_cons, Filtered.admits_withFilter, ih,
      Bool.and_or_distrib_right]

/-- Moments, recurrences and groups can always be joined: alternatives answer with the earlier of
the two answers, and a filter holds occurrences back without moving them. -/
theorem answers_or_and_filter (hleft : left.kind ∈ [.moment, .recurrence, .group])
    (hright : right.kind ∈ [.moment, .recurrence, .group]) (f : Filter) :
    (∃ joined, left.or right = .ok joined ∧ ∀ time,
      joined.following time = earlier (left.following time) (right.following time) ∧
      joined.nextAdmitted time = (left.nextAdmitted time).earlier (right.nextAdmitted time) ∧
      joined.admits time = (left.admits time || right.admits time)) ∧
    (∃ held, left.and (.filter f) = .ok held ∧ ∀ time,
      held.following time = left.following time ∧
      held.admits time = (left.admits time && f.admits time)) := by
  obtain ⟨members, hmembers⟩ := exists_members?_eq_some hleft
  obtain ⟨others, hothers⟩ := exists_members?_eq_some hright
  have hlikeLeft := answersLike_of_members?_eq_some hmembers
  have hlikeRight := answersLike_of_members?_eq_some hothers
  have hlike := answersLike_group (members ++ others)
  refine ⟨⟨_, or_eq_group hmembers hothers, fun time => ⟨?_, ?_, ?_⟩⟩, ?_⟩
  · rw [hlike.following, hlikeLeft.following, hlikeRight.following, List.map_append,
      earliest_append]
  · rw [hlike.nextAdmitted, hlikeLeft.nextAdmitted, hlikeRight.nextAdmitted, List.map_append,
      Answer.earliest_append]
  · rw [hlike.admits, hlikeLeft.admits, hlikeRight.admits, List.any_append]
  · obtain ⟨held, hheld, hlikeHeld⟩ := exists_and_filter_eq_ok hmembers f
    refine ⟨held, hheld, fun time => ⟨?_, ?_⟩⟩
    · rw [hlikeHeld.following, hlikeLeft.following, List.map_map]
      rfl
    · rw [hlikeHeld.admits, hlikeLeft.admits, any_admits_withFilter]

/-- A moment that is over, or every day but admitted on Mondays only. -/
theorem answers_or_and_filter_once_or_daily :
    let left := moment (.midnight 0 (by decide))
    let daily : Recurrence :=
      { start := Instant.midnight 0 (by decide)
        every := some [.amount ⟨1, .day⟩] }
    let mondays : Filter := { weekdays := .ofList [.monday] }
    let right := group [⟨daily, [mondays]⟩]
    let time := Instant.midnight 2 (by decide)
    left.kind ∈ [.moment, .recurrence, .group] ∧ right.kind ∈ [.moment, .recurrence, .group] ∧
      (∃ joined, left.or right = .ok joined ∧
        joined.following time = some (.midnight 3 (by decide)) ∧
        joined.nextAdmitted time = .ok (some (.midnight 4 (by decide)))) ∧
      ∃ held, left.and (.filter mondays) = .ok held ∧ held.admits time = false := by
  intro left daily mondays right time
  have hleft : left.kind ∈ [.moment, .recurrence, .group] := by decide
  have hright : right.kind ∈ [.moment, .recurrence, .group] := by decide
  obtain ⟨⟨joined, hor, hjoined⟩, held, hand, hheld⟩ := answers_or_and_filter hleft hright mondays
  refine ⟨hleft, hright, ⟨joined, hor, ?_, ?_⟩, held, hand, ?_⟩
  · rw [(hjoined time).1]
    decide +kernel
  · rw [(hjoined time).2.1]
    decide +kernel
  · rw [(hheld time).2]
    decide +kernel

end Almanac.Section

import Almanac.Proofs.Section.Join

/-!
Well-formed sections: there is an interval wherever something recurs, a group has a member, the
numbers of a filter can occur, and a time of day exists. Joining well-formed sections keeps all of
this.
-/

namespace Almanac

open Calendar Period Occurrence

/-- Every number of a filter is one that its component can have. -/
structure Filter.IsWithinBounds (f : Filter) : Prop where
  minute_le : ∀ minute ∈ f.minutes, minute ≤ 59
  hour_le : ∀ hour ∈ f.hours, hour ≤ 23
  day_bounds : ∀ day ∈ f.days, 1 ≤ day ∧ day ≤ 31
  week_bounds : ∀ week ∈ f.weeks, 1 ≤ week ∧ week ≤ 53
  month_bounds : ∀ month ∈ f.months, 1 ≤ month ∧ month ≤ 12
  yearDay_bounds : ∀ day ∈ f.yearDays, 1 ≤ day ∧ day ≤ 366

namespace Occurrence

/-- What recurs has an interval. -/
def Recurrence.IsWellFormed (r : Recurrence) : Prop :=
  ∀ intervals ∈ r.every, intervals ≠ []

structure Filtered.IsWellFormed (s : Filtered) : Prop where
  recurrence : s.recurrence.IsWellFormed
  filters : ∀ f ∈ s.filters, f.IsWithinBounds

end Occurrence

/-- Alternative intervals are at least two, as a single one is a section of its own. -/
def Section.IsWellFormed : Section → Prop
  | recurrence r => r.IsWellFormed
  | filter f => f.IsWithinBounds
  | filtered s => s.IsWellFormed
  | group members => members ≠ [] ∧ ∀ m ∈ members, m.IsWellFormed
  | intervals alternatives => 2 ≤ alternatives.length
  | yearDay number => 1 ≤ number ∧ number ≤ 366
  | time c => c.timeOfDay?.isSome = true
  | _ => True

theorem SortedSet.forall_mem_union {α : Type} [Ranked α] {s t : SortedSet α} {p : α → Prop}
    (hs : ∀ a ∈ s, p a) (ht : ∀ a ∈ t, p a) : ∀ a ∈ s.union t, p a := by
  intro a ha
  rcases mem_union.1 ha with ha | ha
  · exact hs a ha
  · exact ht a ha

theorem Filter.IsWithinBounds.union {f g : Filter} (hf : f.IsWithinBounds)
    (hg : g.IsWithinBounds) : (f.union g).IsWithinBounds where
  minute_le := SortedSet.forall_mem_union hf.minute_le hg.minute_le
  hour_le := SortedSet.forall_mem_union hf.hour_le hg.hour_le
  day_bounds := SortedSet.forall_mem_union hf.day_bounds hg.day_bounds
  week_bounds := SortedSet.forall_mem_union hf.week_bounds hg.week_bounds
  month_bounds := SortedSet.forall_mem_union hf.month_bounds hg.month_bounds
  yearDay_bounds := SortedSet.forall_mem_union hf.yearDay_bounds hg.yearDay_bounds

namespace Occurrence

theorem Recurrence.isWellFormed_of_every_eq_none {r : Recurrence} (h : r.every = none) :
    r.IsWellFormed := by
  intro intervals hintervals
  rw [h] at hintervals
  cases hintervals

theorem Recurrence.isWellFormed_of_every_eq_some {r : Recurrence} {intervals : List Interval}
    (h : r.every = some intervals) (hne : intervals ≠ []) : r.IsWellFormed := by
  intro others hothers
  rw [h] at hothers
  cases hothers
  exact hne

theorem Recurrence.IsWellFormed.filtered {r : Recurrence} (h : r.IsWellFormed) :
    Filtered.IsWellFormed ⟨r, []⟩ where
  recurrence := h
  filters := by
    intro f hf
    cases hf

theorem Filtered.IsWellFormed.withFilter {s : Filtered} {f : Filter} (hs : s.IsWellFormed)
    (hf : f.IsWithinBounds) : (s.withFilter f).IsWellFormed where
  recurrence := hs.recurrence
  filters := by
    intro g hg
    rcases List.mem_append.1 hg with hg | hg
    · exact hs.filters g hg
    · rw [List.mem_singleton.1 hg]
      exact hf

end Occurrence

namespace Section

variable {left right joined : Section}

theorem IsWellFormed.alternatives_ne_nil {s : Section} {intervals : List Interval}
    (h : s.IsWellFormed) (hs : s.alternatives? = some intervals) : intervals ≠ [] := by
  rintro rfl
  cases s with
  | interval i => cases hs
  | intervals alternatives =>
    cases hs
    exact absurd h (by unfold IsWellFormed; decide)
  | _ => cases hs

/-- What recurs at the intervals of a well-formed section. -/
theorem IsWellFormed.recurring {s : Section} {r : Recurrence} {intervals : List Interval}
    (h : s.IsWellFormed) (hs : s.alternatives? = some intervals) (hr : r.every = some intervals) :
    r.IsWellFormed :=
  Recurrence.isWellFormed_of_every_eq_some hr (h.alternatives_ne_nil hs)

theorem IsWellFormed.recurrence {s : Section} {r : Recurrence} (h : s.IsWellFormed)
    (hs : s.recurrence? = some r) : r.IsWellFormed := by
  cases s with
  | recurrence r =>
    cases hs
    exact h
  | moment i =>
    cases hs
    exact Recurrence.isWellFormed_of_every_eq_none rfl
  | _ => cases hs

/-- The members of a section make a well-formed group. -/
theorem IsWellFormed.members {s : Section} {members : List Filtered} (h : s.IsWellFormed)
    (hs : s.members? = some members) : (group members).IsWellFormed := by
  cases s with
  | moment | recurrence =>
    cases hs
    exact ⟨List.cons_ne_nil _ _, List.forall_mem_singleton.2 (h.recurrence rfl).filtered⟩
  | group members => cases hs; exact h
  | _ => cases hs

theorem IsWellFormed.groupWithFilter {members : List Filtered} {f : Filter}
    (hmembers : (group members).IsWellFormed) (hf : f.IsWithinBounds) :
    (groupWithFilter members f).IsWellFormed := by
  refine ⟨by simpa using hmembers.1, ?_⟩
  intro m hm
  obtain ⟨member, hmember, rfl⟩ := List.mem_map.1 hm
  exact (hmembers.2 member hmember).withFilter hf

theorem isWellFormed_of_momentAt_eq_ok {d : Date} {c : ClockTime}
    (h : momentAt d c = .ok joined) : joined.IsWellFormed := by
  obtain ⟨t, rfl⟩ := exists_of_momentAt_eq_ok h
  trivial

theorem IsWellFormed.and (hleft : left.IsWellFormed) (hright : right.IsWellFormed)
    (h : left.and right = .ok joined) : joined.IsWellFormed := by
  have honce (i : Instant) : (Recurrence.once i).IsWellFormed :=
    Recurrence.isWellFormed_of_every_eq_none rfl
  unfold Section.and at h
  split at h
  case h_1 r f => cases h; exact hleft.filtered.withFilter hright
  case h_2 | h_3 | h_5 | h_6 | h_12 | h_13 => cases h; exact hright.recurring rfl rfl
  case h_4 i f => cases h; exact (honce i).filtered.withFilter hright
  case h_7 f i => cases h; exact (honce i).filtered.withFilter hleft
  case h_8 f r =>
    cases h
    exact ⟨List.cons_ne_nil _ _, List.forall_mem_singleton.2 (hright.filtered.withFilter hleft)⟩
  case h_9 f g => cases h; exact hleft.union hright
  case h_10 f members => cases h; exact hright.groupWithFilter hleft
  case h_11 members f => cases h; exact hleft.groupWithFilter hright
  case h_14 c d => exact isWellFormed_of_momentAt_eq_ok h
  case h_15 d c => exact isWellFormed_of_momentAt_eq_ok h
  case h_16 => cases h

theorem IsWellFormed.append {members others : List Filtered} (hleft : (group members).IsWellFormed)
    (hright : ∀ m ∈ others, m.IsWellFormed) : (group (members ++ others)).IsWellFormed :=
  ⟨List.append_ne_nil_of_left_ne_nil hleft.1 others, List.forall_mem_append.2 ⟨hleft.2, hright⟩⟩

theorem isWellFormed_of_alternative?_eq_some {r : Recurrence} {other : Filtered}
    (hr : r.IsWellFormed) (hright : right.IsWellFormed) (h : alternative? r right = some other) :
    other.IsWellFormed := by
  unfold alternative? at h
  split at h
  case h_1 f =>
    cases h
    exact hr.filtered.withFilter hright
  case h_2 =>
    split at h
    case h_1 is his =>
      cases h
      exact (hright.recurring his rfl).filtered
    case h_2 =>
      obtain ⟨start, hstart, rfl⟩ := Option.map_eq_some_iff.1 h
      exact (hright.recurrence hstart).filtered

theorem IsWellFormed.or (hleft : left.IsWellFormed) (hright : right.IsWellFormed)
    (h : left.or right = .ok joined) : joined.IsWellFormed := by
  rcases or_eq_ok h with ⟨intervals, further, his, hothers, rfl⟩ |
    ⟨members, others, hmembers, hothers, rfl⟩ | ⟨r, other, hr, -, hother, rfl⟩
  · have hmine := List.length_pos_iff.2 (hleft.alternatives_ne_nil his)
    have htheirs := List.length_pos_iff.2 (hright.alternatives_ne_nil hothers)
    change 2 ≤ (intervals ++ further).length
    rw [List.length_append]
    omega
  · exact (hleft.members hmembers).append (hright.members hothers).2
  · have hstart := hleft.recurrence hr
    have hother := isWellFormed_of_alternative?_eq_some hstart hright hother
    exact ⟨List.cons_ne_nil _ _,
      List.forall_mem_cons.2 ⟨hstart.filtered, List.forall_mem_singleton.2 hother⟩⟩

theorem IsWellFormed.join {joiner : Expression.Joiner} (hleft : left.IsWellFormed)
    (hright : right.IsWellFormed) (h : Section.join joiner left right = .ok joined) :
    joined.IsWellFormed := by
  cases joiner with
  | and => exact hleft.and hright h
  | or => exact hleft.or hright h

end Section

end Almanac

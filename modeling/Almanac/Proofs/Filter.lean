import Mathlib.Data.List.Sort
import Almanac.Filter

/-!
The filter with the values of two others. It does not matter which of the two comes first. It admits
what both of them admit, and where no field has values in both it admits nothing else.
-/

namespace Almanac

namespace SortedSet

variable {α : Type} [Ranked α] {s t : SortedSet α} {a : α}

/-- Sets with the same members are equal, as each has one ascending list. -/
@[ext]
theorem ext (h : ∀ a, a ∈ s ↔ a ∈ t) : s = t := by
  obtain ⟨members, hmembers⟩ := s
  obtain ⟨others, hothers⟩ := t
  have hantisymm : Std.Antisymm fun a b : α => Ranked.rank a < Ranked.rank b :=
    ⟨fun _ _ hab hba => absurd hab (Nat.lt_asymm hba)⟩
  have hirrefl : Std.Irrefl fun a b : α => Ranked.rank a < Ranked.rank b :=
    ⟨fun _ => Nat.lt_irrefl _⟩
  obtain rfl : members = others := hmembers.eq_of_mem_iff hothers h
  rfl

/-- A set is made of its members. -/
theorem ofList_toList (s : SortedSet α) : ofList s.toList = s := by
  ext a
  rw [mem_ofList, mem_def]

theorem isEmpty_ofList {l : List α} (hsome : l ≠ []) : (ofList l).isEmpty = false := by
  obtain ⟨a, ha⟩ := List.exists_mem_of_ne_nil l hsome
  exact List.isEmpty_eq_false_iff.2 (List.ne_nil_of_mem (mem_ofList.2 ha))

theorem union_comm (s t : SortedSet α) : s.union t = t.union s := by
  ext a
  rw [mem_union, mem_union, or_comm]

theorem isEmpty_iff : s.isEmpty = true ↔ s = ∅ := by
  constructor
  · intro hempty
    obtain ⟨members, hmembers⟩ := s
    obtain rfl : members = [] := List.isEmpty_iff.1 hempty
    rfl
  · rintro rfl
    rfl

theorem admits_iff : s.admits a = true ↔ s = ∅ ∨ a ∈ s := by
  simp only [admits, Bool.or_eq_true, isEmpty_iff, contains_iff]

theorem union_empty (s : SortedSet α) : s.union ∅ = s := by
  rw [union_comm]
  rfl

/-- A value that two sets admit is admitted by both together: if they have any values at all the
value is one of them. -/
theorem admits_union (hs : s.admits a = true) (ht : t.admits a = true) :
    (s.union t).admits a = true := by
  rw [admits_iff] at hs ht ⊢
  rcases hs with rfl | hs
  · exact ht
  · exact Or.inr (mem_union.2 (Or.inl hs))

/-- Where one of the sets has no values the other decides. -/
theorem admits_union_of_eq_empty (h : s = ∅ ∨ t = ∅) :
    (s.union t).admits a = (s.admits a && t.admits a) := by
  rcases h with rfl | rfl
  · rfl
  · rw [union_empty]
    exact (Bool.and_true _).symm

end SortedSet

namespace Filter

variable {f g : Filter} {i : Calendar.Instant}

theorem union_comm (f g : Filter) : f.union g = g.union f := by
  simp only [union, SortedSet.union_comm f.minutes, SortedSet.union_comm f.hours,
    SortedSet.union_comm f.days, SortedSet.union_comm f.weeks, SortedSet.union_comm f.months,
    SortedSet.union_comm f.weekdays, SortedSet.union_comm f.yearDays]

/-- No field has values in both filters. -/
structure IsApart (f g : Filter) : Prop where
  minutes : f.minutes = ∅ ∨ g.minutes = ∅
  hours : f.hours = ∅ ∨ g.hours = ∅
  days : f.days = ∅ ∨ g.days = ∅
  weeks : f.weeks = ∅ ∨ g.weeks = ∅
  months : f.months = ∅ ∨ g.months = ∅
  weekdays : f.weekdays = ∅ ∨ g.weekdays = ∅
  yearDays : f.yearDays = ∅ ∨ g.yearDays = ∅

/-- What two filters admit in turn their union admits, even if they share fields. -/
theorem admits_union (hf : f.admits i = true) (hg : g.admits i = true) :
    (f.union g).admits i = true := by
  simp only [admits, Bool.and_eq_true] at hf hg
  obtain ⟨⟨⟨⟨⟨⟨hminutes, hhours⟩, hdays⟩, hweeks⟩, hmonths⟩, hweekdays⟩, hyearDays⟩ := hf
  obtain ⟨⟨⟨⟨⟨⟨hminutes', hhours'⟩, hdays'⟩, hweeks'⟩, hmonths'⟩, hweekdays'⟩, hyearDays'⟩ := hg
  simp only [admits, union, SortedSet.admits_union hminutes hminutes',
    SortedSet.admits_union hhours hhours', SortedSet.admits_union hdays hdays',
    SortedSet.admits_union hweeks hweeks', SortedSet.admits_union hmonths hmonths',
    SortedSet.admits_union hweekdays hweekdays', SortedSet.admits_union hyearDays hyearDays',
    Bool.and_self]

/-- Filters on different fields are one filter. -/
theorem IsApart.admits_union (h : f.IsApart g) (i : Calendar.Instant) :
    (f.union g).admits i = (f.admits i && g.admits i) := by
  simp only [admits, union, SortedSet.admits_union_of_eq_empty h.minutes,
    SortedSet.admits_union_of_eq_empty h.hours, SortedSet.admits_union_of_eq_empty h.days,
    SortedSet.admits_union_of_eq_empty h.weeks, SortedSet.admits_union_of_eq_empty h.months,
    SortedSet.admits_union_of_eq_empty h.weekdays, SortedSet.admits_union_of_eq_empty h.yearDays]
  -- Both sides are the same fourteen conditions, field by field and filter by filter.
  ac_rfl

end Filter

end Almanac

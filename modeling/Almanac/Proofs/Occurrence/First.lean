import Mathlib.Order.Bounds.Defs
import Mathlib.Data.Set.Basic
import Almanac.Occurrence.Merge
import Almanac.Proofs.Calendar.Instant

/-!
The first of a set of instants, as an answer that is none exactly for the empty set.
-/

namespace Almanac.Occurrence

open Calendar

/-- The answer is the least of the instants, and none exactly if there are no instants. -/
def IsFirst (instants : Set Instant) : Option Instant → Prop
  | some i => IsLeast instants i
  | none => instants = ∅

theorem IsFirst.mem {instants : Set Instant} {i : Instant} (h : IsFirst instants (some i)) :
    i ∈ instants :=
  h.1

theorem IsFirst.le {instants : Set Instant} {i other : Instant} (h : IsFirst instants (some i))
    (hother : other ∈ instants) : i ≤ other :=
  h.2 hother

theorem isFirst_none {instants : Set Instant} (h : ∀ i, i ∉ instants) : IsFirst instants none :=
  Set.eq_empty_iff_forall_notMem.2 h

theorem IsFirst.not_mem {instants : Set Instant} (h : IsFirst instants none) (i : Instant) :
    i ∉ instants :=
  Set.eq_empty_iff_forall_notMem.1 h i

theorem IsFirst.congr {instants others : Set Instant} {answer : Option Instant}
    (h : IsFirst instants answer) (hsame : ∀ i, i ∈ instants ↔ i ∈ others) :
    IsFirst others answer :=
  Set.ext hsame ▸ h

/-- A set of instants has one first. -/
theorem IsFirst.unique {instants : Set Instant} {answer other : Option Instant}
    (h : IsFirst instants answer) (hother : IsFirst instants other) : answer = other := by
  cases answer with
  | none =>
    cases other with
    | none => rfl
    | some i => exact absurd hother.mem (h.not_mem i)
  | some i =>
    cases other with
    | none => exact absurd h.mem (hother.not_mem i)
    | some j => exact congrArg some (Instant.le_antisymm (h.le hother.mem) (hother.le h.mem))

theorem IsFirst.eq_some_iff {instants : Set Instant} {answer : Option Instant} {i : Instant}
    (h : IsFirst instants answer) : answer = some i ↔ IsLeast instants i := by
  constructor
  · rintro rfl
    exact h
  · intro hleast
    exact h.unique (show IsFirst instants (some i) from hleast)

theorem IsFirst.eq_none_iff {instants : Set Instant} {answer : Option Instant}
    (h : IsFirst instants answer) : answer = none ↔ instants = ∅ := by
  constructor
  · rintro rfl
    exact h
  · intro hempty
    exact h.unique (show IsFirst instants none from hempty)

/-- Among more instants the first does not come later. -/
theorem IsFirst.exists_le_of_subset {instants others : Set Instant} {i : Instant}
    {answer : Option Instant} (h : IsFirst instants (some i)) (hanswer : IsFirst others answer)
    (hsubset : instants ⊆ others) : ∃ j, answer = some j ∧ j ≤ i := by
  cases answer with
  | none => exact absurd (hsubset h.mem) (hanswer.not_mem i)
  | some j => exact ⟨j, rfl, hanswer.le (hsubset h.mem)⟩

/-- Where others are left out the first stays the first. -/
theorem IsFirst.eq_some_of_subset {instants others : Set Instant} {i : Instant}
    {answer : Option Instant} (h : IsFirst others (some i)) (hanswer : IsFirst instants answer)
    (hsubset : instants ⊆ others) (hi : i ∈ instants) : answer = some i :=
  hanswer.eq_some_iff.2 ⟨hi, fun _ hj => h.le (hsubset hj)⟩

theorem IsFirst.earlier {instants others : Set Instant} {answer other : Option Instant}
    (h : IsFirst instants answer) (hother : IsFirst others other) :
    IsFirst (instants ∪ others) (earlier answer other) := by
  cases answer with
  | none =>
    refine hother.congr fun i => ⟨Or.inr, fun hi => hi.resolve_left (h.not_mem i)⟩
  | some i =>
    cases other with
    | none =>
      refine h.congr fun i => ⟨Or.inl, fun hi => hi.resolve_right (hother.not_mem i)⟩
    | some j =>
      change IsLeast _ (if i ≤ j then i else j)
      split
      case isTrue hle =>
        refine ⟨Or.inl h.mem, ?_⟩
        rintro k (hk | hk)
        · exact h.le hk
        · exact Instant.le_trans hle (hother.le hk)
      case isFalse hle =>
        refine ⟨Or.inr hother.mem, ?_⟩
        rintro k (hk | hk)
        · exact Instant.le_trans (Instant.le_of_lt (Instant.not_le.1 hle)) (h.le hk)
        · exact hother.le hk

theorem mem_of_earliest_eq_some {answers : List (Option Instant)} {i : Instant}
    (h : earliest answers = some i) : some i ∈ answers := by
  induction answers with
  | nil => cases h
  | cons head rest ih =>
    change Occurrence.earlier head (earliest rest) = some i at h
    cases head with
    | none => exact List.mem_cons_of_mem none (ih h)
    | some a =>
      cases hrest : earliest rest with
      | none =>
        rw [hrest] at h
        exact h ▸ List.mem_cons_self ..
      | some b =>
        rw [hrest] at h
        change some (if a ≤ b then a else b) = some i at h
        split at h
        · exact h ▸ List.mem_cons_self ..
        · exact List.mem_cons_of_mem _ (ih (hrest.trans h))

/-- The earliest of the answers of several searches is the answer of the search among all that
they search. -/
theorem isFirst_earliest {ι : Type} (members : List ι) (instants : ι → Set Instant)
    (answer : ι → Option Instant) (h : ∀ m ∈ members, IsFirst (instants m) (answer m)) :
    IsFirst {i | ∃ m ∈ members, i ∈ instants m} (earliest (members.map answer)) := by
  induction members with
  | nil =>
    apply isFirst_none
    rintro i ⟨m, hm, _⟩
    cases hm
  | cons m rest ih =>
    have hhead := h m (List.mem_cons_self ..)
    have hrest := ih fun n hn => h n (List.mem_cons_of_mem m hn)
    refine (hhead.earlier hrest).congr fun i => ?_
    simp only [Set.mem_union, Set.mem_ofPred_eq, List.mem_cons, exists_eq_or_imp]

end Almanac.Occurrence

/-!
Finite sets kept as ascending lists. Every set has exactly one list, so two sets with the same
members are equal.
-/

namespace Almanac

/-- A type whose values are told apart and ordered by a number. -/
class Ranked (α : Type) where
  rank : α → Nat
  eq_of_rank_eq : ∀ {a b : α}, rank a = rank b → a = b

instance : Ranked Nat where
  rank := id
  eq_of_rank_eq := id

/-- A finite set, listed in ascending order of rank without repetition. -/
structure SortedSet (α : Type) [Ranked α] where
  toList : List α
  ascending : toList.Pairwise (fun a b => Ranked.rank a < Ranked.rank b)

namespace SortedSet

variable {α : Type} [Ranked α]

open Ranked (rank)

/-- Puts `a` before the first member of greater rank, unless it is there already. -/
def insertList (a : α) : List α → List α
  | [] => [a]
  | b :: rest =>
    if rank a < rank b then a :: b :: rest
    else if rank a = rank b then b :: rest
    else b :: insertList a rest

theorem mem_insertList {a x : α} {l : List α} : x ∈ insertList a l ↔ x = a ∨ x ∈ l := by
  induction l with
  | nil => simp [insertList]
  | cons b rest ih =>
    rw [insertList]
    split
    · simp
    · split
      · rename_i h
        have := Ranked.eq_of_rank_eq h
        subst this
        simp
      · simp only [List.mem_cons, ih]
        constructor
        · rintro (h | h | h) <;> simp [h]
        · rintro (h | h | h) <;> simp [h]

theorem ascending_insertList {a : α} {l : List α}
    (h : l.Pairwise (fun a b => rank a < rank b)) :
    (insertList a l).Pairwise (fun a b => rank a < rank b) := by
  induction l with
  | nil => simp [insertList]
  | cons b rest ih =>
    rw [List.pairwise_cons] at h
    rw [insertList]
    split
    · rename_i hab
      refine List.pairwise_cons.2 ⟨fun c hc => ?_, List.pairwise_cons.2 h⟩
      rcases List.mem_cons.1 hc with hc | hc
      · exact hc ▸ hab
      · exact Nat.lt_trans hab (h.1 c hc)
    · split
      · exact List.pairwise_cons.2 h
      · refine List.pairwise_cons.2 ⟨fun c hc => ?_, ih h.2⟩
        rcases mem_insertList.1 hc with hc | hc
        · subst hc
          omega
        · exact h.1 c hc

def empty : SortedSet α := ⟨[], List.Pairwise.nil⟩

instance : Inhabited (SortedSet α) := ⟨empty⟩

instance : EmptyCollection (SortedSet α) := ⟨empty⟩

instance : Membership α (SortedSet α) := ⟨fun s a => a ∈ s.toList⟩

def insert (a : α) (s : SortedSet α) : SortedSet α :=
  ⟨insertList a s.toList, ascending_insertList s.ascending⟩

def ofList (l : List α) : SortedSet α :=
  l.foldr insert empty

def union (s t : SortedSet α) : SortedSet α :=
  s.toList.foldr insert t

def contains (s : SortedSet α) (a : α) : Bool :=
  s.toList.any (fun b => rank b == rank a)

def isEmpty (s : SortedSet α) : Bool :=
  s.toList.isEmpty

theorem mem_def {a : α} {s : SortedSet α} : a ∈ s ↔ a ∈ s.toList := Iff.rfl

theorem mem_insert {a x : α} {s : SortedSet α} : x ∈ s.insert a ↔ x = a ∨ x ∈ s :=
  mem_insertList

theorem mem_ofList {x : α} {l : List α} : x ∈ ofList l ↔ x ∈ l := by
  induction l with
  | nil => simp [ofList, empty, mem_def]
  | cons a rest ih =>
    have : ofList (a :: rest) = (ofList rest).insert a := rfl
    rw [this, mem_insert, ih, List.mem_cons]

theorem mem_union {x : α} {s t : SortedSet α} : x ∈ s.union t ↔ x ∈ s ∨ x ∈ t := by
  unfold union
  rw [mem_def (s := s)]
  induction s.toList with
  | nil => simp
  | cons a rest ih => rw [List.foldr_cons, mem_insert, ih, List.mem_cons, or_assoc]

theorem contains_iff {s : SortedSet α} {a : α} : s.contains a = true ↔ a ∈ s := by
  simp only [contains, List.any_eq_true, beq_iff_eq, mem_def]
  constructor
  · rintro ⟨b, hb, h⟩
    exact Ranked.eq_of_rank_eq h ▸ hb
  · exact fun h => ⟨a, h, rfl⟩

end SortedSet

end Almanac

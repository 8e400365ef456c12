/-!
A generator of random numbers. Each number is drawn from a range, and what is drawn next may depend
on all ranges that were drawn from before, so that equal ranges give different numbers.
-/

namespace Almanac

/-- A way to draw a number from `low` up to and without `high`. -/
structure Draw where
  pick : Nat → Nat → Nat
  low_le_pick : ∀ low high, low < high → low ≤ pick low high
  pick_lt : ∀ low high, low < high → pick low high < high

namespace Draw

/-- The draw that takes the least number. -/
def least : Draw where
  pick low _ := low
  low_le_pick _ _ _ := Nat.le_refl _
  pick_lt _ _ h := h

instance : Inhabited Draw := ⟨least⟩

/-- The draw of the number that is `offset` above the least, or of the greatest. -/
def above (offset : Nat) : Draw where
  pick low high := min (low + offset) (high - 1)
  low_le_pick _ _ _ := by omega
  pick_lt _ _ _ := by omega

end Draw

/-- The state of a generator, told by what it does from here on: how it draws once it has drawn from
these ranges, the earliest first. -/
structure Generator where
  drawAfter : List (Nat × Nat) → Draw

namespace Generator

/-- The next draw. -/
def next (g : Generator) : Draw :=
  g.drawAfter []

/-- The state after a draw from that range. -/
def advance (g : Generator) (low high : Nat) : Generator :=
  ⟨fun ranges => g.drawAfter ((low, high) :: ranges)⟩

/-- The generator that always draws the least number. -/
def least : Generator :=
  ⟨fun _ => .least⟩

instance : Inhabited Generator := ⟨least⟩

/-- The generator that draws a greater number each time, as far as the ranges go. -/
def rising : Generator :=
  ⟨fun ranges => .above ranges.length⟩

end Generator

end Almanac

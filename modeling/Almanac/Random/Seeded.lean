import Almanac.Random.ChaCha
import Almanac.Random.Generator

/-!
The generator that a seed begins. It reads one sequence of words from the start on, and gives the
same numbers every time; within a range every number is equally likely.
-/

namespace Almanac

namespace Random

/-- The next state of a linear congruential sequence. -/
def nextState (state : UInt64) : UInt64 :=
  state * 6364136223846793005 + 11634580027462260723

/-- A word out of a state: its upper bits, mixed and rotated by the uppermost ones. -/
def outputWord (state : UInt64) : UInt32 :=
  let mixed := (((state >>> 18) ^^^ state) >>> 27).toUInt32
  let bits := (state >>> 59).toUInt32
  mixed >>> bits ||| mixed <<< (32 - bits)

/-- The first words of the sequence that a seed begins. -/
def seedWords : Nat → UInt64 → List UInt32
  | 0, _ => []
  | count + 1, state =>
    let state := nextState state
    outputWord state :: seedWords count state

def Key.ofSeed (seed : UInt64) : Key :=
  match seedWords 8 seed with
  | [a, b, c, d, e, f, g, h] => ⟨⟨a, b, c, d⟩, ⟨e, f, g, h⟩⟩
  | _ => ⟨⟨0, 0, 0, 0⟩, ⟨0, 0, 0, 0⟩⟩

/-- Two to the 64th: the words of 64 bits are below it. -/
def wordRange : Nat := 18446744073709551616

/-- The number below `size` that a word stands for: the upper half of their product. The words
whose lower half is beyond a multiple of the size are passed over, so that all numbers are equally
likely. -/
def indexOf? (size : Nat) (word : UInt64) : Option Nat :=
  let product := word.toNat * size
  let limit := size <<< (63 - size.log2)
  if product % wordRange < limit then some (product / wordRange) else none

/-- The number below `size` of the first word from a position on that has one, and the position
behind that word. At most `tries` words are looked at. -/
def indexFrom (word : Nat → UInt64) (size : Nat) (tries position : Nat) : Nat × Nat :=
  match tries with
  | 0 => (0, position)
  | tries + 1 =>
    match indexOf? size (word position) with
    | some index => (index, position + 1)
    | none => indexFrom word size tries (position + 1)

/-- As many words as are enough: the chance that all are passed over is below one in two to the
64th. -/
def enoughTries : Nat := 64

theorem indexOf?_lt {size index : Nat} {word : UInt64} (h : indexOf? size word = some index)
    (hs : 0 < size) : index < size := by
  unfold indexOf? at h
  simp only at h
  split at h
  · simp only [Option.some.injEq] at h
    subst h
    have : word.toNat < wordRange := word.toNat_lt
    rw [Nat.div_lt_iff_lt_mul (by decide), Nat.mul_comm size]
    exact Nat.mul_lt_mul_of_pos_right this hs
  · cases h

theorem indexFrom_lt (word : Nat → UInt64) {size : Nat} (hs : 0 < size) (tries position : Nat) :
    (indexFrom word size tries position).1 < size := by
  induction tries generalizing position with
  | zero => exact hs
  | succ tries ih =>
    unfold indexFrom
    split
    · exact indexOf?_lt ‹_› hs
    · exact ih (position + 1)

end Random

/-- The draw from the words from `position` on. -/
def Draw.ofWords (word : Nat → UInt64) (position : Nat) : Draw where
  pick low high := low + (Random.indexFrom word (high - low) Random.enoughTries position).1
  low_le_pick _ _ _ := Nat.le_add_right _ _
  pick_lt low high h := by
    have hs : 0 < high - low := by omega
    have := Random.indexFrom_lt word hs Random.enoughTries position
    omega

namespace Generator

/-- The generator that reads the words from `position` on, each of them once. -/
def ofWords (word : Nat → UInt64) (position : Nat) : Generator where
  drawAfter ranges :=
    .ofWords word <| ranges.foldl (fun position (low, high) =>
      (Random.indexFrom word (high - low) Random.enoughTries position).2) position

/-- After a draw it reads on behind the word that the number is of. -/
theorem advance_ofWords (word : Nat → UInt64) (position low high : Nat) :
    (ofWords word position).advance low high =
      ofWords word (Random.indexFrom word (high - low) Random.enoughTries position).2 := rfl

def seeded (seed : UInt64) : Generator :=
  ofWords (Random.Key.ofSeed seed).doubleWord 0

end Generator

end Almanac

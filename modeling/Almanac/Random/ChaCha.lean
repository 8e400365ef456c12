/-!
The ChaCha stream cipher with twelve rounds, as a source of words: a key and a position give a
word, and each word looks random to whoever lacks the key.
-/

namespace Almanac.Random

structure Row where
  first : UInt32
  second : UInt32
  third : UInt32
  fourth : UInt32

namespace Row

/-- The same operation in every column. -/
def zip (f : UInt32 → UInt32 → UInt32) (r s : Row) : Row :=
  ⟨f r.first s.first, f r.second s.second, f r.third s.third, f r.fourth s.fourth⟩

/-- Adds column by column, modulo two to the 32nd. -/
def add (r s : Row) : Row :=
  zip (· + ·) r s

/-- Adds bit by bit, and then rotates the bits of every column to the left. -/
def xorRotate (bits : UInt32) (r s : Row) : Row :=
  zip (fun x y => (x ^^^ y) <<< bits ||| (x ^^^ y) >>> (32 - bits)) r s

/-- Moves every column one place to the left. -/
def rotate (r : Row) : Row :=
  ⟨r.second, r.third, r.fourth, r.first⟩

def toList (r : Row) : List UInt32 :=
  [r.first, r.second, r.third, r.fourth]

end Row

structure Block where
  a : Row
  b : Row
  c : Row
  d : Row

namespace Block

/-- A quarter round on every column. -/
def columnRound (s : Block) : Block :=
  let a := s.a.add s.b
  let d := s.d.xorRotate 16 a
  let c := s.c.add d
  let b := s.b.xorRotate 12 c
  let a := a.add b
  let d := d.xorRotate 8 a
  let c := c.add d
  let b := b.xorRotate 7 c
  ⟨a, b, c, d⟩

/-- Moves the diagonals into the columns. -/
def toDiagonals (s : Block) : Block :=
  ⟨s.a, s.b.rotate, s.c.rotate.rotate, s.d.rotate.rotate.rotate⟩

def ofDiagonals (s : Block) : Block :=
  ⟨s.a, s.b.rotate.rotate.rotate, s.c.rotate.rotate, s.d.rotate⟩

/-- A round on the columns and one on the diagonals. -/
def doubleRound (s : Block) : Block :=
  s.columnRound.toDiagonals.columnRound.ofDiagonals

def toList (s : Block) : List UInt32 :=
  s.a.toList ++ s.b.toList ++ s.c.toList ++ s.d.toList

end Block

structure Key where
  low : Row
  high : Row

/-- The block of a key with that number, before the rounds. -/
def Key.block (k : Key) (number : UInt64) : Block where
  a := ⟨0x61707865, 0x3320646e, 0x79622d32, 0x6b206574⟩
  b := k.low
  c := k.high
  d := ⟨number.toUInt32, (number >>> 32).toUInt32, 0, 0⟩

/-- The sixteen words that twelve rounds make of a block. -/
def Key.words (k : Key) (number : UInt64) : List UInt32 :=
  let start := k.block number
  let mixed := Nat.repeat Block.doubleRound 6 start
  List.zipWith (· + ·) mixed.toList start.toList

/-- Pairs of words as words of double length, the low half first. -/
def joinPairs : List UInt32 → List UInt64
  | low :: high :: rest => (low.toUInt64 ||| high.toUInt64 <<< 32) :: joinPairs rest
  | _ => []

/-- The double word of a key at that position: there are eight of them in every block. -/
def Key.doubleWord (k : Key) (position : Nat) : UInt64 :=
  (joinPairs (k.words (UInt64.ofNat (position / 8))))[position % 8]?.getD 0

end Almanac.Random

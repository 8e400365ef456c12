import Almanac.Binary64.Nearest

/-!
The exact values of floating point numbers. To compute with floating point numbers is to compute
with their values and to round each result to the nearest value again.
-/

namespace Almanac.Binary64

/-- A finite positive number as `significand * 2 ^ exponent`, read off its bits. -/
structure Parts where
  significand : Nat
  exponent : Int

def Parts.ofBits (bits : Nat) : Parts :=
  let field := bits / hiddenBit
  let fraction := bits % hiddenBit
  if field = 0 then ⟨fraction, -1074⟩ else ⟨hiddenBit + fraction, (field : Int) - 1075⟩

def Parts.value (p : Parts) : Rat :=
  p.significand * 2 ^ p.exponent

/-- The value of a finite number. -/
def value (x : Binary64) : Rat :=
  let size := (Parts.ofBits x.magnitude).value
  if x.isNegative then -size else size

def ofRat (q : Rat) : Binary64 :=
  nearest (q < 0) q.num.natAbs q.den

/-- The number of the same size on the other side of zero. The zeros have each other there. -/
def negate (x : Binary64) : Binary64 :=
  ofMagnitude (!x.isNegative) x.magnitude

/-- The nearest rational that is the value of a floating point number. -/
def rounded (q : Rat) : Rat :=
  (ofRat q).value

end Almanac.Binary64

/-!
Binary floating point numbers of 64 bits, kept as their bits: a sign, eleven bits of exponent and
52 bits of fraction. The bits keep apart what compares as equal, such as the two zeros, and the
values that stand for no number, which all have an exponent of ones and a fraction.
-/

namespace Almanac

/-- A floating point number, as its bits. -/
structure Binary64 where
  bits : UInt64
  deriving DecidableEq

namespace Binary64

/-- The significand of a number with 53 places is below twice this. -/
def hiddenBit : Nat := 4503599627370496

/-- The bits of infinity: an exponent field of ones above an empty fraction. -/
def infinityBits : Nat := 2047 * hiddenBit

/-- The bit of the minus sign. -/
def signBit : Nat := 2048 * hiddenBit

/-- The number with these bits below the sign. -/
def ofMagnitude (negative : Bool) (magnitude : Nat) : Binary64 :=
  ⟨UInt64.ofNat (if negative then signBit + magnitude else magnitude)⟩

def magnitude (x : Binary64) : Nat :=
  x.bits.toNat % signBit

def isNegative (x : Binary64) : Bool :=
  signBit ≤ x.bits.toNat

/-- Whether the bits stand for a number, and not for an infinity either. -/
def isFinite (x : Binary64) : Bool :=
  x.magnitude < infinityBits

def infinity (negative : Bool) : Binary64 :=
  ofMagnitude negative infinityBits

/-- The usual value that stands for no number. -/
def notNumber (negative : Bool) : Binary64 :=
  ofMagnitude negative (infinityBits + hiddenBit / 2)

/-- The value to compute with. Computing need not keep apart the values that stand for no
number. -/
def toFloat (x : Binary64) : Float :=
  Float.ofBits x.bits

end Binary64

end Almanac

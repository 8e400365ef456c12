import Almanac.Binary64.Basic

/-!
The binary floating point number nearest to a fraction, found in exact whole-number arithmetic.
-/

namespace Almanac.Binary64

def twoPow (n : Nat) : Nat :=
  Nat.pow 2 n

/-- The quotient rounded to the nearest whole number, a tie to the even one. -/
def roundDivEven (num den : Nat) : Nat :=
  let quotient := num / den
  let twice := 2 * (num % den)
  if twice < den then quotient
  else if den < twice then quotient + 1
  else quotient + quotient % 2

/-- The exponent of the last binary place that a number in the size of `num / den` keeps: the
number has 53 significant places, and none below the place of two to the minus 1074. -/
def lastPlace (num den : Nat) : Int :=
  let estimate : Int := (num.log2 : Int) - den.log2 - 53
  let reached : Bool :=
    if 0 ≤ estimate then 2 * hiddenBit * twoPow estimate.toNat * den ≤ num
    else 2 * hiddenBit * den ≤ num * twoPow (-estimate).toNat
  max (if reached then estimate + 1 else estimate) (-1074)

/-- The bits of the number nearest to `num / den`, a tie to the even significand; infinity from
the point on where the largest finite number would be rounded up. -/
def nearestBits (num den : Nat) : Nat :=
  if num = 0 then 0
  else
    let place := lastPlace num den
    let significand :=
      if 0 ≤ place then roundDivEven num (den * twoPow place.toNat)
      else roundDivEven (num * twoPow (-place).toNat) den
    min ((place + 1074).toNat * hiddenBit + significand) infinityBits

/-- The number nearest to the fraction `num / den`, with the given sign. -/
def nearest (negative : Bool) (num den : Nat) : Binary64 :=
  ofMagnitude negative (nearestBits num den)

def ofInt (n : Int) : Binary64 :=
  nearest (n < 0) n.natAbs 1

end Almanac.Binary64

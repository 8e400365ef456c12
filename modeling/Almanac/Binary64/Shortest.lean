import Almanac.Binary64.Value
import Almanac.Text.Numeral

/-!
The text of a floating point number: the fewest digits that read back as the same number, the
nearest such digits if there are several, written in positional notation without an exponent.
-/

namespace Almanac.Binary64

/-- The reals that round to a number, over a common denominator: all between `low` and `high`,
with both ends when `closed` holds. -/
structure Interval where
  low : Nat
  value : Nat
  high : Nat
  denominator : Nat
  closed : Bool

/-- Half the distance to either neighbour; the lower neighbour of a power of two is nearer. -/
def Parts.interval (p : Parts) : Interval :=
  let scale := twoPow p.exponent.toNat
  let below := if p.significand = hiddenBit ∧ -1074 < p.exponent then 1 else 2
  { low := (4 * p.significand - below) * scale
    value := 4 * p.significand * scale
    high := (4 * p.significand + 2) * scale
    denominator := 4 * twoPow (-p.exponent).toNat
    closed := p.significand % 2 = 0 }

/-- Whether `num / den` rounds to the number. -/
def Interval.holds (i : Interval) (num den : Nat) : Bool :=
  let scaled := num * i.denominator
  if i.closed then i.low * den ≤ scaled && scaled ≤ i.high * den
  else i.low * den < scaled && scaled < i.high * den

/-- The number of digits before the decimal point; negative for zeros that follow the point. -/
def Interval.pointPosition (i : Interval) : Int :=
  if i.denominator ≤ i.value then ((Text.digits (i.value / i.denominator)).length : Int)
  else
    match (List.range 330).find? fun zeros => i.denominator ≤ i.value * Text.tenPow (zeros + 1) with
    | some zeros => -(zeros : Int)
    | none => -330

/-- Of the two multiples of ten to the `place` around the value, the one that reads back, the
nearer of two; the greater if the value lies midway. -/
def Interval.onGrid? (i : Interval) (place : Int) : Option Nat :=
  let num := i.value * Text.tenPow (-place).toNat
  let den := i.denominator * Text.tenPow place.toNat
  let below := num / den
  let reads (n : Nat) : Bool := i.holds (n * Text.tenPow place.toNat) (Text.tenPow (-place).toNat)
  match reads below, reads (below + 1) with
  | true, true => some (if 2 * (num % den) < den then below else below + 1)
  | true, false => some below
  | false, true => some (below + 1)
  | false, false => none

/-- The coarsest decimal grid that has a number reading back: its digits and its place. Seventeen
significant digits always suffice. -/
def Interval.shortest (i : Interval) : Nat × Int :=
  let point := i.pointPosition
  match (List.range 17).findSome? fun (count : Nat) =>
      (i.onGrid? (point - (count + 1))).map fun n => (n, point - (count + 1)) with
  | some found => found
  | none => (i.value / i.denominator, 0)

/-- Digits with the last one at the given decimal place, without an exponent. -/
def positional (n : Nat) (place : Int) : List Char :=
  if 0 ≤ place then Text.digits (n * Text.tenPow place.toNat)
  else
    let places := (-place).toNat
    let padded := Text.paddedDigits (places + 1) n
    let whole := padded.take (padded.length - places)
    let fraction := padded.drop (padded.length - places)
    let kept := (fraction.reverse.dropWhile (· = '0')).reverse
    if kept.isEmpty then whole else whole ++ '.' :: kept

def text (x : Binary64) : String :=
  let sign := if x.isNegative then "-" else ""
  if infinityBits < x.magnitude then "NaN"
  else if x.magnitude = infinityBits then sign ++ "inf"
  else if x.magnitude = 0 then sign ++ "0"
  else
    let (n, place) := (Parts.ofBits x.magnitude).interval.shortest
    sign ++ String.ofList (positional n place)

end Almanac.Binary64

import Almanac.Binary64.Nearest
import Almanac.Text.Numeral

/-!
Reading a floating point number: a sign, digits with at most one point among them, an exponent;
or the names of infinity and of what stands for no number.
-/

namespace Almanac.Binary64

/-- An unsigned decimal: `digits * 10 ^ exponent`. -/
structure Decimal where
  digits : Nat
  exponent : Int

/-- The value nearest to a decimal. Far beyond either end of the range the exponent alone
decides, so that no huge power is computed. -/
def Decimal.nearest (negative : Bool) (d : Decimal) : Binary64 :=
  let point := d.exponent + (Text.digits d.digits).length
  if d.digits = 0 ∨ point < -400 then Binary64.nearest negative 0 1
  else if 400 < point then infinity negative
  else if 0 ≤ d.exponent then Binary64.nearest negative (d.digits * Text.tenPow d.exponent.toNat) 1
  else Binary64.nearest negative d.digits (Text.tenPow (-d.exponent).toNat)

/-- The part before the exponent: digits on one side of the point at least. -/
def readMantissa? (text : List Char) : Option Decimal :=
  let whole := text.takeWhile Char.isDigit
  match text.dropWhile Char.isDigit with
  | [] => if whole.isEmpty then none else some ⟨Text.valueOfDigits whole, 0⟩
  | '.' :: fraction =>
    if fraction.all Char.isDigit && !(whole ++ fraction).isEmpty then
      some ⟨Text.valueOfDigits (whole ++ fraction), -(fraction.length : Int)⟩
    else none
  | _ => none

def readDecimal? (text : List Char) : Option Decimal :=
  let isMark (c : Char) : Bool := c = 'e' || c = 'E'
  let mantissa := text.takeWhile (!isMark ·)
  match text.dropWhile (!isMark ·) with
  | [] => readMantissa? mantissa
  | _ :: exponent => do
    let m ← readMantissa? mantissa
    let e ← Text.readInteger? exponent
    some ⟨m.digits, m.exponent + e⟩

def readUnsigned? (negative : Bool) (text : List Char) : Option Binary64 :=
  let name := String.ofList (text.map Char.toLower)
  if name = "inf" ∨ name = "infinity" then some (infinity negative)
  else if name = "nan" then some (notNumber negative)
  else (readDecimal? text).map (Decimal.nearest negative)

def read? : List Char → Option Binary64
  | '-' :: rest => readUnsigned? true rest
  | '+' :: rest => readUnsigned? false rest
  | text => readUnsigned? false text

end Almanac.Binary64

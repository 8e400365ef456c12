/-!
Whole numbers in decimal: the digits of a number, the number that digits stand for, and the
readers that admit a sign and bound the result.
-/

namespace Almanac.Text

def digitChar (d : Nat) : Char :=
  Char.ofNat ('0'.toNat + d)

/-- The digits of a number, most significant first, without leading zeros. -/
def digits (n : Nat) : List Char :=
  if n < 10 then [digitChar n] else digits (n / 10) ++ [digitChar (n % 10)]

def valueOfDigits (ds : List Char) : Nat :=
  ds.foldl (fun n d => 10 * n + (d.toNat - '0'.toNat)) 0

def tenPow (n : Nat) : Nat :=
  Nat.pow 10 n

/-- The digits of a number, filled up with zeros in front to at least `width` characters. -/
def paddedDigits (width n : Nat) : List Char :=
  List.replicate (width - (digits n).length) '0' ++ digits n

def natural (n : Nat) : String :=
  String.ofList (digits n)

/-- A number as text, with a minus sign in front if it is negative. -/
def integer (n : Int) : String :=
  if n < 0 then "-" ++ natural n.natAbs else natural n.natAbs

/-- One or more digits and nothing else. -/
def readNatural? (text : List Char) : Option Nat :=
  if text ≠ [] ∧ text.all Char.isDigit then some (valueOfDigits text) else none

/-- Digits, with at most one plus or minus sign in front. -/
def readInteger? : List Char → Option Int
  | '-' :: rest => (readNatural? rest).map fun n => -(n : Int)
  | '+' :: rest => (readNatural? rest).map Int.ofNat
  | text => (readNatural? text).map Int.ofNat

/-- The whole numbers that a signed word of 64 bits holds. -/
def IsWord64 (n : Int) : Prop :=
  -9223372036854775808 ≤ n ∧ n ≤ 9223372036854775807

instance (n : Int) : Decidable (IsWord64 n) := by
  unfold IsWord64
  infer_instance

/-- A signed number of at most 64 bits. -/
def readWord64? (text : List Char) : Option Int :=
  (readInteger? text).filter (IsWord64 ·)

/-- Two to the 32nd: the words of 32 bits are below it. -/
def word32 : Nat := 4294967296

/-- Two to the 64th: the words of 64 bits are below it. -/
def word64 : Nat := 18446744073709551616

/-- A number of at most 32 bits; a plus sign may stand in front, a minus sign may not. -/
def readCount32? : List Char → Option Nat
  | '+' :: rest => (readNatural? rest).filter (· < word32)
  | text => (readNatural? text).filter (· < word32)

end Almanac.Text

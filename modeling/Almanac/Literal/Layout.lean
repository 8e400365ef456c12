import Almanac.Calendar.Instant
import Almanac.Text.Blank
import Almanac.Text.Numeral

/-!
Layouts of written dates and times. A layout is a list of items, and one reader takes them off the
front of a text in order; each item takes as many digits as it may.
-/

namespace Almanac.Literal

open Calendar Text

inductive Part where
  | year
  | month
  | day
  | hour
  | minute
  | second
  deriving DecidableEq

/-- What a layout asks for next. -/
inductive Item where
  /-- A number after any blanks, of at most as many digits as is usual; a year with a sign may
  have more. -/
  | number (part : Part)
  /-- A number of exactly as many digits as is usual. -/
  | exact (part : Part)
  | mark (options : List Char)
  /-- A fraction of a second behind a point, or nothing. Digits after the ninth have no effect. -/
  | fraction
  /-- The distance from the prime meridian, as a `Z` or in hours and minutes. -/
  | offset

/-- The numbers read so far. Those that a layout does not ask for keep their defaults. -/
structure Numbers where
  year : Int := 0
  month : Nat := 1
  day : Nat := 1
  hour : Nat := 0
  minute : Nat := 0
  second : Nat := 0
  nano : Nat := 0
  /-- Minutes by which the written time is ahead. -/
  offset : Int := 0

def Part.width : Part → Nat
  | .year => 4
  | _ => 2

/-- Notes a number that was read; none if it is out of its range. -/
def Numbers.set? (n : Numbers) (part : Part) (value : Nat) : Option Numbers :=
  match part with
  | .year => some { n with year := value }
  | .month => if 1 ≤ value ∧ value ≤ 12 then some { n with month := value } else none
  | .day => if 1 ≤ value ∧ value ≤ 31 then some { n with day := value } else none
  | .hour => if value < 24 then some { n with hour := value } else none
  | .minute => if value < 60 then some { n with minute := value } else none
  | .second => if value ≤ 60 then some { n with second := value } else none

/-- One or more digits, at most `width` of them, and the rest of the text. -/
def takeDigits? (width : Nat) (text : List Char) : Option (List Char × List Char) :=
  let taken := (text.takeWhile Char.isDigit).take width
  if taken.isEmpty then none else some (taken, text.drop taken.length)

/-- A signed year: any number of digits behind the sign. -/
def readSignedYear? (negative : Bool) (text : List Char) (n : Numbers) :
    Option (Numbers × List Char) :=
  let taken := text.takeWhile Char.isDigit
  if taken.isEmpty then none
  else
    let value : Int := valueOfDigits taken
    some ({ n with year := if negative then -value else value }, text.dropWhile Char.isDigit)

/-- A number behind blanks. -/
def readNumber? (part : Part) (text : List Char) (n : Numbers) : Option (Numbers × List Char) :=
  match part, dropBlanks text with
  | .year, '-' :: rest => readSignedYear? true rest n
  | .year, '+' :: rest => readSignedYear? false rest n
  | part, digits => do
    let (taken, rest) ← takeDigits? part.width digits
    let numbers ← n.set? part (valueOfDigits taken)
    some (numbers, rest)

def readExact? (part : Part) (text : List Char) (n : Numbers) : Option (Numbers × List Char) := do
  let (taken, rest) ← takeDigits? part.width text
  let numbers ← if taken.length = part.width then n.set? part (valueOfDigits taken) else none
  some (numbers, rest)

/-- The nanoseconds of a fraction's digits. -/
def nanosOfDigits (digits : List Char) : Nat :=
  let kept := digits.take 9
  valueOfDigits kept * tenPow (9 - kept.length)

/-- A fraction of a second, if a point begins one. -/
def readFraction? (text : List Char) (n : Numbers) : Option (Numbers × List Char) :=
  match text with
  | '.' :: rest =>
    let taken := rest.takeWhile Char.isDigit
    if taken.isEmpty then none
    else some ({ n with nano := nanosOfDigits taken }, rest.dropWhile Char.isDigit)
  | _ => some (n, text)

/-- Hours and minutes of an offset below 24 hours. -/
def readOffsetTime? (negative : Bool) (text : List Char) (n : Numbers) :
    Option (Numbers × List Char) := do
  let (clock, rest) ← readExact? .hour text {}
  let rest ← match rest with
    | ':' :: rest => some rest
    | _ => none
  let (clock, rest) ← readExact? .minute rest clock
  let minutes : Int := 60 * clock.hour + clock.minute
  some ({ n with offset := if negative then -minutes else minutes }, rest)

/-- An offset. The minus sign may be the mathematical one. -/
def readOffset? (text : List Char) (n : Numbers) : Option (Numbers × List Char) :=
  match text with
  | 'Z' :: rest => some (n, rest)
  | 'z' :: rest => some (n, rest)
  | '+' :: rest => readOffsetTime? false rest n
  | '-' :: rest => readOffsetTime? true rest n
  | '\u2212' :: rest => readOffsetTime? true rest n
  | _ => none

def Item.read? (item : Item) (text : List Char) (n : Numbers) : Option (Numbers × List Char) :=
  match item with
  | .number part => readNumber? part text n
  | .exact part => readExact? part text n
  | .mark options =>
    match text with
    | c :: rest => if c ∈ options then some (n, rest) else none
    | [] => none
  | .fraction => readFraction? text n
  | .offset => readOffset? text n

abbrev Layout := List Item

/-- Reads a whole text; nothing may be left over. -/
def Layout.read? : Layout → List Char → Numbers → Option Numbers
  | [], [], n => some n
  | [], _ :: _, _ => none
  | item :: items, text, n =>
    (item.read? text n).bind fun (n, rest) => Layout.read? items rest n

def Numbers.date? (n : Numbers) : Option Date :=
  Date.ofNumbers? n.year n.month n.day

def Numbers.timeOfDay? (n : Numbers) : Option TimeOfDay :=
  TimeOfDay.ofNumbers? n.hour n.minute n.second n.nano

def Numbers.instant? (n : Numbers) : Option Instant := do
  let date ← n.date?
  let time ← n.timeOfDay?
  (Instant.on date time).addMinutes? (-n.offset)

end Almanac.Literal

import Almanac.Literal.Duration
import Almanac.Literal.Layout

/-!
Reading a literal as a given kind. Several layouts are admitted, tried in order.
-/

namespace Almanac.Literal

open Calendar Period

def extendedDate : Layout :=
  [.number .year, .mark ['-'], .number .month, .mark ['-'], .number .day]

def basicDate : Layout :=
  [.number .year, .number .month, .number .day]

def extendedMinute : Layout :=
  [.number .hour, .mark [':'], .number .minute]

def extendedSecond : Layout :=
  extendedMinute ++ [.mark [':'], .number .second]

/-- Hour, minute and second with colons, and perhaps a fraction. -/
def extendedFraction : Layout :=
  extendedSecond ++ [.fraction]

def basicMinute : Layout :=
  [.number .hour, .number .minute]

def basicSecond : Layout :=
  basicMinute ++ [.number .second]

def dateLayouts : List Layout :=
  [extendedDate, basicDate]

def timeLayouts : List Layout :=
  [extendedFraction, extendedSecond, extendedMinute, basicSecond, basicMinute]

def dateTimeLayouts : List Layout :=
  [extendedDate ++ .mark ['T'] :: extendedFraction, extendedDate ++ .mark ['T'] :: extendedSecond,
    extendedDate ++ .mark ['T'] :: extendedMinute, basicDate ++ .mark ['T'] :: basicSecond,
    basicDate ++ .mark ['T'] :: basicMinute]

/-- The strict layout of a date, a time of day and an offset. -/
def offsetDateTime : Layout :=
  [.exact .year, .mark ['-'], .exact .month, .mark ['-'], .exact .day, .mark ['T', 't', ' '],
    .exact .hour, .mark [':'], .exact .minute, .mark [':'], .exact .second, .fraction, .offset]

/-- What the first layout gives that reads the text and whose numbers make sense. -/
def firstReading? {α : Type} (layouts : List Layout) (make? : Numbers → Option α)
    (text : List Char) : Option α :=
  layouts.findSome? fun layout => (layout.read? text {}).bind make?

/-- The text without one `Z` at its end. -/
def stripZulu (text : List Char) : List Char :=
  if text.getLast? = some 'Z' then text.dropLast else text

/-- A written instant; without an offset it is universal time. -/
def readDateTime (text : List Char) : Except Fault Instant :=
  match firstReading? [offsetDateTime] Numbers.instant? text with
  | some i => .ok i
  | none =>
    match firstReading? dateTimeLayouts Numbers.instant? (stripZulu text) with
    | some i => .ok i
    | none => .error .notDateTime

def readDate (text : List Char) : Except Fault Date :=
  match firstReading? dateLayouts Numbers.date? text with
  | some d => .ok d
  | none => .error .notDate

def readTime (text : List Char) : Except Fault TimeOfDay :=
  match firstReading? timeLayouts Numbers.timeOfDay? (stripZulu text) with
  | some t => .ok t
  | none => .error .notTime

/-- The number of repetitions behind an `R`; none when there is no bound. -/
def readCount : List Char → Except Fault (Option Nat)
  | ['R'] => .ok none
  | 'R' :: count =>
    match Text.readCount32? count with
    | some n => .ok (some n)
    | none => .error (.notCount (String.ofList count))
  | _ => .error .repetitionMarkMissing

def readRepetition (text : List Char) : Except Fault Repetition := do
  let parts := Text.split '/' text
  let count ← readCount (parts.headD [])
  match parts with
  | [_, start, duration] =>
    let start ← readDateTime start
    let duration ← readDuration duration
    .ok ⟨count, start, duration⟩
  | _ => .error .notThreeParts

def read (kind : Kind) (text : List Char) : Except Fault Value :=
  match kind with
  | .dateTime => (readDateTime text).map .dateTime
  | .date => (readDate text).map .date
  | .time => (readTime text).map .time
  | .duration => (readDuration text).map .duration
  | .repeatingInterval => (readRepetition text).map .repeatingInterval

end Almanac.Literal

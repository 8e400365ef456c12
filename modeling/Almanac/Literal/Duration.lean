import Almanac.Literal.Basic
import Almanac.Text.Split

/-!
Written durations: a `P`, components of a number and a designator, and behind a `T` those of the
time. The components may come in any order; of two with one designator the later counts.
-/

namespace Almanac.Literal

open Calendar Period

/-- A number and the designator behind it. -/
structure Component where
  value : Nat
  designator : Char

/-- Splits components, where `digits` are those read since the last designator. -/
def readComponents (digits : List Char) : List Char → Except Fault (List Component)
  | [] =>
    if digits.isEmpty then .ok [] else .error (.designatorMissing (String.ofList digits))
  | c :: rest =>
    if c.isDigit then readComponents (digits ++ [c]) rest
    else if digits.isEmpty then .error (.numberMissing c)
    else
      match Text.readCount32? digits with
      | none => .error (.numberTooLarge (String.ofList digits))
      | some value => (readComponents [] rest).map (⟨value, c⟩ :: ·)

/-- Notes a component that stands before the `T`. -/
def setDateComponent (d : Duration) (c : Component) : Except Fault Duration :=
  match c.designator with
  | 'Y' => .ok { d with years := c.value }
  | 'M' => .ok { d with months := c.value }
  | 'W' => .ok { d with weeks := c.value }
  | 'D' => .ok { d with days := c.value }
  | other => .error (.designatorBeforeTime other)

/-- Notes a component that stands behind the `T`. -/
def setTimeComponent (d : Duration) (c : Component) : Except Fault Duration :=
  match c.designator with
  | 'H' => .ok { d with hours := c.value }
  | 'M' => .ok { d with minutes := c.value }
  | 'S' => .ok { d with seconds := c.value }
  | other => .error (.designatorAfterTime other)

/-- The components behind the `T`, if there is one. -/
def readTimeComponents : Option (List Char) → Except Fault (List Component)
  | none => .ok []
  | some [] => .error .timeEmpty
  | some time => readComponents [] time

def readDuration : List Char → Except Fault Duration
  | 'P' :: body => do
    let (datePart, timePart) := Text.cut 'T' body
    let dateComponents ← readComponents [] datePart
    let withDate ← dateComponents.foldlM setDateComponent {}
    let timeComponents ← readTimeComponents timePart
    let duration ← timeComponents.foldlM setTimeComponent withDate
    if dateComponents.isEmpty && timeComponents.isEmpty then .error .componentMissing
    else .ok duration
  | _ => .error .durationMarkMissing

end Almanac.Literal

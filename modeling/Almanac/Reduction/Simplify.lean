import Almanac.Period.Conversion
import Almanac.Reduction.Context
import Almanac.Reduction.Outcome

/-!
Shorthand sections in terms of the others. A section that is no shorthand stays as it is.
-/

namespace Almanac

open Calendar Period Occurrence

def sunriseTime : ClockTime := ⟨3, 0, 0⟩

def sunsetTime : ClockTime := ⟨18, 0, 0⟩

/-- A rational as a natural number, to the nearest, a half upward; below zero it is zero, and above
the greatest number of 64 bits it is that number. -/
def nearestNatural (q : Rat) : Nat :=
  min (q + 1 / 2).floor.toNat (Text.word64 - 1)

/-- An amount in terms of a finer unit, as a whole number. -/
def Context.numberIn (ctx : Context) (unit : TimeUnit) (a : Amount) : Nat :=
  nearestNatural (convertNatural ctx.now a.unit unit (min a.number maxStepSeconds))

/-- Draws an amount between two, in the finer of their units. -/
def Context.drawAmount (ctx : Context) (low high : Amount) : Reduction SpecError Amount :=
  let unit := low.unit.finer high.unit
  let lowNumber := ctx.numberIn unit low
  let highNumber := ctx.numberIn unit high
  if lowNumber < highNumber then (⟨·, unit⟩) <$> .draw lowNumber highNumber
  else .fail (.emptyRange low high)

/-- The end of a repetition: without end, or before one step more than the last. -/
def Literal.Repetition.stop? (r : Literal.Repetition) : Option Bound :=
  match r.count with
  | none => some .forever
  | some count => (r.duration.step.nth? r.start count).map .moment

def WrittenLiteral.expand (l : WrittenLiteral) : Except SpecError Section :=
  match l.value with
  | .dateTime i => .ok (.moment i)
  | .date d => .ok (.date d)
  | .time t => .ok (.time (ClockTime.ofTimeOfDay t))
  | .duration d => .ok (.duration d)
  | .repeatingInterval r =>
    match r.stop? with
    | some stop => .ok (.recurrence ⟨r.start, some stop, some [.duration r.duration]⟩)
    | none => .error (.badLiteral l.kind l.written .endOutOfRange)

namespace Section

/-- A section without shorthand. -/
def simplify (ctx : Context) (s : Section) : Reduction SpecError Section :=
  match s with
  | now => pure (.recurrence (.once ctx.now))
  | sunrise => pure (.time sunriseTime)
  | sunset => pure (.time sunsetTime)
  | epoch seconds =>
    match epochInstant? seconds with
    | some i => pure (.moment i)
    | none => .fail (.badArguments "epoch" [("epoch", .outOfRange)])
  | between start stop => pure (.recurrence ⟨start, some (stop.getD .forever), none⟩)
  | weekdays days => pure (.filter { weekdays := days })
  | yearDay number => pure (.filter { yearDays := SortedSet.ofList [number] })
  | range low high => .amount <$> ctx.drawAmount low high
  | filtered member => pure (.group [member])
  | literal l => .ofExcept l.expand
  | s => pure s

end Section

end Almanac

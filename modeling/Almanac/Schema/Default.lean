import Almanac.Schema.Basic
import Almanac.Section.Epoch
import Almanac.Section.Literal

/-!
The schemas of the sections that every expression may use.
-/

namespace Almanac.Schema

open Calendar Period Occurrence

/-- The outcome of building a section from checked fields. -/
abbrev Built := Except (List ArgumentProblem) Section

def refuse {α : Type} (field : String) (reason : Reason) : Except (List ArgumentProblem) α :=
  .error [(field, reason)]

def require {α : Type} (f : Fields) (view : FieldValue → Option α) (name : String) :
    Except (List ArgumentProblem) α :=
  match f.view? view name with
  | some a => .ok a
  | none => refuse name .missing

def requireStart (f : Fields) : Except (List ArgumentProblem) Instant := do
  match ← require f FieldValue.bound? "start" with
  | .moment i => .ok i
  | .forever => refuse "start" .startForever

/-- The intervals that a section stands for. -/
def intervalsOf? : Section → Option (List Interval)
  | .interval i => some [i]
  | .intervals alternatives => some alternatives
  | _ => none

/-- An event with a start, an end and intervals. -/
def recurrence : Schema where
  fields := [.must "start" (.bound false), .may "end" (.bound true),
    .may "every" (.subsection [.interval, .intervals])]
  build f := do
    let start ← requireStart f
    .ok (.recurrence ⟨start, f.view? FieldValue.bound? "end",
      (f.view? FieldValue.section? "every").bind intervalsOf?⟩)

def weekdaysOf (names : List String) : SortedSet Weekday :=
  SortedSet.ofList (names.filterMap Weekday.ofName?)

/-- A filter on the components of the calendar. -/
def filter : Schema where
  fields := [.may "minutes" (.integersWithin (.within 0 59)),
    .may "hours" (.integersWithin (.within 0 23)),
    .may "days" (.integersWithin (.within 1 31)),
    .may "weeks" (.integersWithin (.within 1 53)),
    .may "months" (.integersWithin (.within 1 12)),
    .may "day_names" (.choices Weekday.names),
    .may "day_numbers" (.integersWithin (.within 1 366))]
  build f :=
    let numbers (name : String) : SortedSet Nat := SortedSet.ofList (f.counts name)
    .ok (.filter
      { minutes := numbers "minutes"
        hours := numbers "hours"
        days := numbers "days"
        weeks := numbers "weeks"
        months := numbers "months"
        weekdays := weekdaysOf ((f.view? FieldValue.texts? "day_names").getD [])
        yearDays := numbers "day_numbers" })

def constant (s : Section) : Schema where
  fields := []
  build _ := .ok s

def epoch : Schema where
  fields := [.must "epoch" .number]
  build f := do
    let seconds ← require f FieldValue.number? "epoch"
    match epochInstant? seconds with
    | some _ => .ok (.epoch seconds)
    | none => refuse "epoch" (.notRepresentable seconds)

def amount : Schema where
  fields := [.must "num" (.integerWithin .natural), .must "size" (.choice TimeUnit.names)]
  build f := do
    let number ← require f FieldValue.integer? "num"
    let name ← require f FieldValue.text? "size"
    match TimeUnit.ofName? name with
    | none => refuse "size" (.notUnit name)
    | some unit =>
      if number < 0 then refuse "num" (.negative number) else .ok (.amount ⟨number.toNat, unit⟩)

def requireAmount (f : Fields) (name : String) : Except (List ArgumentProblem) Amount :=
  match f.view? FieldValue.section? name with
  | some (.amount a) => .ok a
  | _ => refuse name .notAmount

def range : Schema where
  fields := [.must "min" (.subsection [.amount]), .must "max" (.subsection [.amount])]
  build f := do
    let low ← requireAmount f "min"
    let high ← requireAmount f "max"
    .ok (.range low high)

/-- An interval of an amount or of a duration. -/
def interval : Schema where
  fields := [.must "every" (.subsection [.amount, .duration])]
  build f :=
    match f.view? FieldValue.section? "every" with
    | some (.amount a) => .ok (.interval (.amount a))
    | some (.duration d) => .ok (.interval (.duration d))
    | _ => refuse "every" .notPeriod

def between : Schema where
  fields := [.must "start" (.bound false), .may "end" (.bound true)]
  build f := do
    let start ← requireStart f
    .ok (.between start (f.view? FieldValue.bound? "end"))

def weekdays : Schema where
  fields := [.must "name" (.choices Weekday.names)]
  build f := do
    let names ← require f FieldValue.texts? "name"
    let days := weekdaysOf names
    if days.isEmpty then refuse "name" .noWeekday else .ok (.weekdays days)

def yearDay : Schema where
  fields := [.must "number" (.integerWithin (.within 1 366))]
  build f := do
    let number ← require f FieldValue.count? "number"
    .ok (.yearDay number)

def time : Schema where
  fields := [.must "hour" (.integerWithin (.within 0 23)),
    .must "minute" (.integerWithin (.within 0 59))]
  build f := do
    let hour ← require f FieldValue.count? "hour"
    let minute ← require f FieldValue.count? "minute"
    .ok (.time ⟨hour, minute, 0⟩)

def date : Schema where
  fields := [.must "year" .integer, .must "month" (.integerWithin (.within 1 12)),
    .must "day" (.integerWithin (.within 1 31))]
  build f := do
    let year ← require f FieldValue.integer? "year"
    let month ← require f FieldValue.count? "month"
    let day ← require f FieldValue.count? "day"
    match Date.ofNumbers? year month day with
    | some d => .ok (.date d)
    | none => refuse "day" (.notDate year month day)

def literal : Schema where
  fields := [.must "type" (.choice Literal.Kind.names), .must "specification" .text]
  build f := do
    let name ← require f FieldValue.text? "type"
    match Literal.Kind.ofName? name with
    | none => refuse "type" (.notLiteralKind name)
    | some kind =>
      let written ← require f FieldValue.text? "specification"
      match WrittenLiteral.read kind written with
      | .ok l => .ok (.literal l)
      | .error e => refuse "specification" (.nested e)

/-- The schemas under the names that expressions call them by. -/
def defaults : List (String × Schema) :=
  [("repeat", recurrence), ("filter", filter), ("now", constant .now),
    ("sunrise", constant .sunrise), ("sunset", constant .sunset),
    ("forever", constant .forever), ("epoch", epoch), ("amount", amount), ("range", range),
    ("interval", interval), ("between", between), ("day_name", weekdays),
    ("day_number", yearDay), ("time", time), ("date", date), ("iso8601", literal)]

end Almanac.Schema

import Almanac.Expression.Problem
import Almanac.Expression.Tree
import Almanac.Section.Capability

/-!
What may be wrong with an expression: each error is its cause, and one function puts it into words.
The problems with the arguments of a call name the argument, and one of them may be the error of a
nested call.
-/

namespace Almanac

open Expression

/-- The whole numbers that a field admits; without an upper bound if there is none. -/
structure Bounds where
  lower : Int
  upper : Option Int
  deriving DecidableEq

mutual

/-- Why an expression has no meaning. -/
inductive SpecError where
  /-- The text is not an expression. -/
  | unreadable (problem : Problem)
  | unknownSection (name : String) (available : List String)
  /-- All problems with the arguments of one call, each with the name of the argument. -/
  | badArguments (name : String) (problems : List (String × Reason))
  | unsupported (joiner : Joiner) (left right : Section.Kind)
  /-- The expression does not say when anything happens. -/
  | incomplete (got : List Capability)
  | parameterOnly (kind : Section.Kind)
  | unknownUnit (first second : String)
  | badLiteral (kind : Literal.Kind) (literal : String) (fault : Literal.Fault)
  /-- A range with nothing to draw from. -/
  | emptyRange (low high : Period.Amount)

inductive Reason where
  | unexpectedArgument
  | missing
  | notInteger (got : Value)
  | notNumber (got : Value)
  | notText (got : Value)
  | notList (got : Value)
  | notSection (got : Value)
  | outOfBounds (bounds : Bounds) (got : Int)
  | notChoice (choices : List String) (got : String)
  /-- Problems with single items of a list, each with its position from 0. -/
  | items (problems : List (Nat × Reason))
  | wrongKind (wanted : List Section.Kind) (got : Section.Kind)
  /-- The argument is a call that has an error itself. -/
  | nested (error : SpecError)
  | epochOutOfRange (seconds : Binary64)
  | notTimeOfDay (c : Calendar.ClockTime)
  | noWeekday
  | noSuchYearDay (year : Int) (number : Nat)
  | foreverNotEnd
  | notMoment (got : Section.Kind)
  | startForever
  | notRepresentable (seconds : Binary64)
  | outOfRange
  | notUnit (name : String)
  | negative (number : Int)
  | notAmount
  | notPeriod
  | notDate (year : Int) (month day : Nat)
  | notLiteralKind (name : String)

end

/-- An argument and what is wrong with it. -/
abbrev ArgumentProblem := String × Reason

def kindNames (kinds : List Section.Kind) : String :=
  ", ".intercalate (kinds.map Section.Kind.name)

def Bounds.message (b : Bounds) (got : Int) : String :=
  match b.upper with
  | none => "expected at least " ++ Text.integer b.lower ++ ", got " ++ Text.integer got
  | some upper =>
    "expected " ++ Text.integer b.lower ++ "..=" ++ Text.integer upper ++ ", got " ++
      Text.integer got

def capabilityNames (got : List Capability) : String :=
  if got.isEmpty then "nothing" else ", ".intercalate (got.map Capability.name)

mutual

def SpecError.message : SpecError → String
  | .unreadable problem => problem.message
  | .unknownSection name available =>
    "Unknown section type '" ++ name ++ "' (available: " ++ ", ".intercalate available ++ ")"
  | .badArguments name problems =>
    "Bad arguments for " ++ name ++ ": " ++ "; ".intercalate (argumentMessages problems)
  | .unsupported joiner left right =>
    "Sorry, can't do " ++ left.name ++ " " ++ joiner.sign.toString ++ " " ++ right.name
  | .incomplete got =>
    "Time spec is invalid, it doesn't say when anything happens (got: " ++
      capabilityNames got ++ ")"
  | .parameterOnly kind => "Sorry, " ++ kind.name ++ " can only be used as a parameter"
  | .unknownUnit first second =>
    "Size must be one of the valid units (first: " ++ first ++ ", second: " ++ second ++ ")"
  | .badLiteral kind literal fault =>
    "Invalid ISO 8601 " ++ kind.name ++ " '" ++ literal ++ "': " ++ fault.message
  | .emptyRange low high => "Invalid range: " ++ low.text ++ " is not less than " ++ high.text

def Reason.message : Reason → String
  | .unexpectedArgument => "unexpected argument"
  | .missing => "required"
  | .notInteger got => "expected an integer, got '" ++ got.written ++ "'"
  | .notNumber got => "expected a number, got '" ++ got.written ++ "'"
  | .notText got => "expected a string, got '" ++ got.written ++ "'"
  | .notList got => "expected ';' separated values, got '" ++ got.written ++ "'"
  | .notSection got => "expected a section, got '" ++ got.written ++ "'"
  | .outOfBounds bounds got => bounds.message got
  | .notChoice choices got =>
    "expected one of the available choices (" ++ ", ".intercalate choices ++ "), got '" ++ got ++
      "'"
  | .items problems => ", ".intercalate (itemMessages problems)
  | .wrongKind wanted got => "expected one of " ++ kindNames wanted ++ ", got " ++ got.name
  | .nested error => error.message
  | .epochOutOfRange seconds => "epoch " ++ seconds.text ++ " is out of range"
  | .notTimeOfDay c => c.text ++ " is not a valid time of day"
  | .noWeekday => "expected at least one day name"
  | .noSuchYearDay year number =>
    Text.integer year ++ " has no day number " ++ Text.natural number
  | .foreverNotEnd => "forever() can only be used as an end"
  | .notMoment got => "expected a moment in time, got " ++ got.name
  | .startForever => "a start can't be forever"
  | .notRepresentable seconds => seconds.text ++ " is not a representable moment"
  | .outOfRange => "out of range"
  | .notUnit name => "'" ++ name ++ "' is not a unit"
  | .negative number => Text.integer number ++ " is negative"
  | .notAmount => "expected an amount"
  | .notPeriod => "expected an amount or a duration"
  | .notDate year month day =>
    Text.integer year ++ "-" ++ Text.natural month ++ "-" ++ Text.natural day ++
      " is not a calendar date"
  | .notLiteralKind name => "'" ++ name ++ "' is not an ISO 8601 type"

def argumentMessages : List (String × Reason) → List String
  | [] => []
  | problem :: rest => argumentMessage problem :: argumentMessages rest

/-- A problem with an argument in words, behind the name of the argument. -/
def argumentMessage : String × Reason → String
  | (field, reason) => field ++ ": " ++ reason.message

def itemMessages : List (Nat × Reason) → List String
  | [] => []
  | problem :: rest => itemMessage problem :: itemMessages rest

/-- A problem with an item in words, behind the position of the item. -/
def itemMessage : Nat × Reason → String
  | (index, reason) => "item " ++ Text.natural index ++ ": " ++ reason.message

end

end Almanac

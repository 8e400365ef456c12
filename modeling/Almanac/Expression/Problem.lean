import Almanac.Text.Numeral

/-!
What keeps a text from being an expression.
-/

namespace Almanac.Expression

inductive Expected where
  | name
  | mark (c : Char)
  | argumentEnd
  | value
  | joinerOrEnd
  /-- An argument name that the call does not have yet. -/
  | newArgument
  deriving DecidableEq, Repr

inductive Found where
  | character (c : Char)
  | endOfInput
  | repeatedArgument (name : String)
  deriving DecidableEq, Repr

/-- The first problem of a text, at a byte of it. -/
structure Problem where
  position : Nat
  expected : Expected
  found : Found
  deriving DecidableEq, Repr

def Expected.phrase : Expected → String
  | .name => "a name"
  | .mark c => "'" ++ c.toString ++ "'"
  | .argumentEnd => "',' or ')'"
  | .value => "a value"
  | .joinerOrEnd => "'&', '|' or end of input"
  | .newArgument => "each argument name once"

def Found.phrase : Found → String
  | .character c => "'" ++ c.toString ++ "'"
  | .endOfInput => "end of input"
  | .repeatedArgument name => "a second '" ++ name ++ "'"

def Problem.message (p : Problem) : String :=
  "Syntax error at position " ++ Text.natural p.position ++ ": expected " ++ p.expected.phrase ++
    ", found " ++ p.found.phrase

end Almanac.Expression

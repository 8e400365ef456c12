import Almanac.Expression.Value

/-!
Expressions as trees: calls, joined in pairs.
-/

namespace Almanac.Expression

inductive Joiner where
  | and
  | or
  deriving DecidableEq, Repr

def Joiner.sign : Joiner → Char
  | .and => '&'
  | .or => '|'

def Joiner.ofSign? (c : Char) : Option Joiner :=
  if c = '&' then some .and else if c = '|' then some .or else none

/-- A part of a text, from the byte at `start` up to the byte before `stop`. -/
structure Span where
  start : Nat
  stop : Nat
  deriving DecidableEq, Repr

def Span.text (s : Span) : String :=
  Text.natural s.start ++ ".." ++ Text.natural s.stop

/-- An expression. Each call knows where it stands in the text. -/
inductive Tree where
  | call (name : String) (args : List (String × Value)) (span : Span)
  | join (joiner : Joiner) (left right : Tree)

namespace Tree

/-- The part of the text from the start of the first call to the end of the last. -/
def span : Tree → Span
  | call _ _ span => span
  | join _ left right => ⟨left.span.start, right.span.stop⟩

/-- An expression with every join in parentheses. -/
def written : Tree → String
  | call name args _ => callText name (writtenArguments args)
  | join joiner left right =>
    "(" ++ left.written ++ " " ++ joiner.sign.toString ++ " " ++ right.written ++ ")"

end Tree

end Almanac.Expression

import Almanac.Keyed
import Almanac.Section.Text
import Almanac.Text.Blank
import Almanac.Text.Split

/-!
The values that arguments have in an expression.
-/

namespace Almanac.Expression

/-- The value of an argument. The arguments of a call are in ascending order of their names. -/
inductive Value where
  | text (s : String)
  | integer (n : Int)
  | boolean (b : Bool)
  | list (items : List String)
  | call (name : String) (args : List (String × Value))
  /-- A section made beforehand. -/
  | given (s : Section)

def booleanText (b : Bool) : String :=
  if b then "true" else "false"

def callText (name : String) (args : List String) : String :=
  name ++ "(" ++ ", ".intercalate args ++ ")"

mutual

def Value.written : Value → String
  | .text s => s
  | .integer n => Text.integer n
  | .boolean b => booleanText b
  | .list items => ";".intercalate items
  | .call name args => callText name (writtenArguments args)
  | .given s => s.text

def writtenArguments : List (String × Value) → List String
  | [] => []
  | argument :: rest => writtenArgument argument :: writtenArguments rest

def writtenArgument : String × Value → String
  | (key, value) => key ++ ": " ++ value.written

end

/-- The value of a bare token: pieces if it has semicolons, a truth value, a whole number of at
most 64 bits, or else text. -/
def Value.ofToken (token : List Char) : Value :=
  if ';' ∈ token then
    .list ((Text.split ';' token).map fun piece => String.ofList (Text.trim piece))
  else if token = "true".toList then .boolean true
  else if token = "false".toList then .boolean false
  else
    match Text.readWord64? token with
    | some n => .integer n
    | none => .text (String.ofList token)

end Almanac.Expression

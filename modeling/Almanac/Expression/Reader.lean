import Almanac.Expression.Problem
import Almanac.Expression.Tree

/-!
Reading an expression, one character after the other.

An expression is a chain of terms with joiners between them; both joiners bind alike and group to
the left. A term is a call or an expression in parentheses, a call has named arguments, and the
value of an argument is a call again or a bare token: everything up to the next comma or closing
parenthesis. Blanks may stand between any two signs, and inside a bare token they are dropped.

What has been read so far is kept as a `State`. A joiner waits for its right side, an opened
parenthesis for its close, and an argument for the call that is its value, so that no part of the
text is looked at twice.
-/

namespace Almanac.Expression

/-- Whether a name may begin with the character. -/
def isNameStart (c : Char) : Bool :=
  c.isAlpha || c = '_'

/-- Whether a name may go on with the character. -/
def isNameChar (c : Char) : Bool :=
  c.isAlphanum || c = '_'

/-- A left side and the joiner behind it, waiting for the right side. -/
abbrev Pending := Option (Tree × Joiner)

/-- Joins a term to the left side that waits for it. -/
def Pending.complete (pending : Pending) (term : Tree) : Tree :=
  match pending with
  | none => term
  | some (left, joiner) => .join joiner left term

/-- A call whose arguments are being read. -/
structure OpenCall where
  name : String
  args : List (String × Value) := []

/-- An argument whose value is a call that is being read. -/
structure OpenArgument where
  call : OpenCall
  key : String
  keyStart : Nat

/-- Where in a call the reading is. An argument's position is that of its name, or of the end of
the comma before it. -/
inductive CallMode where
  | first
  /-- Behind a comma that ends at `start`. -/
  | key (start : Nat)
  | keyName (start : Nat) (name : String)
  | colon (start : Nat) (name : String)
  | value (start : Nat) (name : String)
  /-- Inside a bare token, or in what may still become the name of a nested call. -/
  | token (start : Nat) (name : String) (tokenStart : Nat) (raw : String)
  | next

/-- Where in an expression the reading is. -/
inductive Mode where
  | term
  | name (start : Nat) (name : String)
  | openParenthesis (start : Nat) (name : String)
  /-- In the call that starts at `start`, or in a call nested in it. -/
  | call (start : Nat) (outer : List OpenArgument) (inner : OpenCall) (mode : CallMode)
  | operator (tree : Tree)

/-- What has been read: the left sides that wait outside of the parentheses that are open, the one
that waits inside of them, and the place within the current term. -/
structure State where
  groups : List Pending := []
  pending : Pending := none
  mode : Mode := .term

def unexpected {α : Type} (position : Nat) (expected : Expected) (c : Char) :
    Except Problem α :=
  .error ⟨position, expected, .character c⟩

def unfinished {α : Type} (position : Nat) (expected : Expected) : Except Problem α :=
  .error ⟨position, expected, .endOfInput⟩

/-- Files an argument; each name may occur once. -/
def OpenCall.insert (call : OpenCall) (key : String) (keyStart : Nat) (value : Value) :
    Except Problem OpenCall :=
  if Keyed.contains call.args key then
    .error ⟨keyStart, .newArgument, .repeatedArgument key⟩
  else .ok { call with args := Keyed.insert key value call.args }

/-- The name that a token turns out to be when an opening parenthesis follows it. -/
def nestedName? (raw : String) : Option String :=
  let name := raw.toList.takeWhile isNameChar
  let rest := raw.toList.dropWhile isNameChar
  if name.head?.any isNameStart && rest.all Text.isAsciiBlank then some (String.ofList name)
  else none

/-- Files the value of a bare token. -/
def OpenCall.insertToken (call : OpenCall) (key : String) (keyStart tokenStart : Nat)
    (raw : String) : Except Problem OpenCall :=
  let token := raw.toList.filter (!Text.isBlank ·)
  match token, raw.toList with
  | [], first :: _ => unexpected tokenStart .value first
  | token, _ => call.insert key keyStart (Value.ofToken token)

/-- The expression has a further term. -/
def State.endTerm (s : State) (term : Tree) : State :=
  { s with pending := none, mode := .operator (s.pending.complete term) }

/-- A call ends before the byte at `stop`. -/
def State.endCall (s : State) (start stop : Nat) (outer : List OpenArgument) (inner : OpenCall) :
    Except Problem State :=
  match outer with
  | [] => .ok (s.endTerm (.call inner.name inner.args ⟨start, stop⟩))
  | argument :: outer =>
    (argument.call.insert argument.key argument.keyStart (.call inner.name inner.args)).map
      fun call => { s with mode := .call start outer call .next }

/-- Takes a character where a term is due. -/
def State.stepTerm (s : State) (position : Nat) (c : Char) : Except Problem State :=
  if Text.isAsciiBlank c then .ok s
  else if c = '(' then .ok { s with groups := s.pending :: s.groups, pending := none }
  else if isNameStart c then .ok { s with mode := .name position c.toString }
  else unexpected position .name c

/-- Takes a character where the parenthesis behind the name of a section is due. -/
def State.stepOpenParenthesis (s : State) (start : Nat) (name : String) (position : Nat)
    (c : Char) : Except Problem State :=
  if Text.isAsciiBlank c then .ok { s with mode := .openParenthesis start name }
  else if c = '(' then .ok { s with mode := .call start [] { name := name } .first }
  else unexpected position (.mark '(') c

/-- Takes a character behind a term. -/
def State.stepOperator (s : State) (tree : Tree) (position : Nat) (c : Char) :
    Except Problem State :=
  if Text.isAsciiBlank c then .ok s
  else
    match Joiner.ofSign? c, s.groups with
    | some joiner, _ => .ok { s with pending := some (tree, joiner), mode := .term }
    | none, [] => unexpected position .joinerOrEnd c
    | none, pending :: groups =>
      if c = ')' then .ok (State.endTerm ⟨groups, pending, .term⟩ tree)
      else unexpected position (.mark ')') c

/-- Takes a character where the name of an argument is due. -/
def stepKey (start position : Nat) (c : Char) (blank : CallMode) : Except Problem CallMode :=
  if Text.isAsciiBlank c then .ok blank
  else if isNameStart c then .ok (.keyName start c.toString)
  else unexpected position .name c

/-- Takes a character where the colon behind the name of an argument is due. -/
def stepColon (start : Nat) (name : String) (position : Nat) (c : Char) :
    Except Problem CallMode :=
  if Text.isAsciiBlank c then .ok (.colon start name)
  else if c = ':' then .ok (.value start name)
  else unexpected position (.mark ':') c

/-- Takes a character where a value is due. -/
def stepValue (start : Nat) (name : String) (position : Nat) (c : Char) :
    Except Problem CallMode :=
  if Text.isAsciiBlank c then .ok (.value start name)
  else if c = ',' || c = ')' then unexpected position .value c
  else if c = '(' || c = '&' || c = '|' then unexpected position .argumentEnd c
  else .ok (.token start name position c.toString)

/-- Takes a character behind the value of an argument. -/
def State.stepNext (s : State) (start : Nat) (outer : List OpenArgument) (inner : OpenCall)
    (position : Nat) (c : Char) : Except Problem State :=
  if Text.isAsciiBlank c then .ok { s with mode := .call start outer inner .next }
  else if c = ',' then .ok { s with mode := .call start outer inner (.key (position + 1)) }
  else if c = ')' then s.endCall start (position + 1) outer inner
  else unexpected position .argumentEnd c

/-- Takes a character of a bare token, or one that ends it. -/
def State.stepToken (s : State) (start : Nat) (outer : List OpenArgument) (inner : OpenCall)
    (keyStart : Nat) (key : String) (tokenStart : Nat) (raw : String) (position : Nat)
    (c : Char) : Except Problem State :=
  if c = ',' || c = ')' then
    (inner.insertToken key keyStart tokenStart raw).bind fun call =>
      s.stepNext start outer call position c
  else if c = '(' then
    match nestedName? raw with
    | some name =>
      .ok { s with mode := .call start (⟨inner, key, keyStart⟩ :: outer) { name := name } .first }
    | none => unexpected position .argumentEnd c
  else if c = '&' || c = '|' then unexpected position .argumentEnd c
  else .ok { s with mode := .call start outer inner (.token keyStart key tokenStart (raw.push c)) }

/-- Takes a character inside a call. -/
def State.stepCall (s : State) (start : Nat) (outer : List OpenArgument) (inner : OpenCall)
    (mode : CallMode) (position : Nat) (c : Char) : Except Problem State :=
  let stay (result : Except Problem CallMode) : Except Problem State :=
    result.map fun mode => { s with mode := .call start outer inner mode }
  match mode with
  | .first =>
    if c = ')' then s.endCall start (position + 1) outer inner
    else stay (stepKey position position c .first)
  | .key keyStart => stay (stepKey keyStart position c (.key keyStart))
  | .keyName keyStart name =>
    if isNameChar c then stay (.ok (.keyName keyStart (name.push c)))
    else stay (stepColon keyStart name position c)
  | .colon keyStart name => stay (stepColon keyStart name position c)
  | .value keyStart name => stay (stepValue keyStart name position c)
  | .token keyStart key tokenStart raw =>
    s.stepToken start outer inner keyStart key tokenStart raw position c
  | .next => s.stepNext start outer inner position c

/-- Takes the character that begins at a byte of the text. -/
def State.step (s : State) (position : Nat) (c : Char) : Except Problem State :=
  match s.mode with
  | .term => s.stepTerm position c
  | .name start name =>
    if isNameChar c then .ok { s with mode := .name start (name.push c) }
    else s.stepOpenParenthesis start name position c
  | .openParenthesis start name => s.stepOpenParenthesis start name position c
  | .call start outer inner mode => s.stepCall start outer inner mode position c
  | .operator tree => s.stepOperator tree position c

/-- What is missing where a text ends inside a call. -/
def endInCall (inner : OpenCall) (mode : CallMode) (position : Nat) : Except Problem Tree :=
  match mode with
  | .first => unfinished position .name
  | .key _ => unfinished position .name
  | .keyName _ _ => unfinished position (.mark ':')
  | .colon _ _ => unfinished position (.mark ':')
  | .value _ _ => unfinished position .value
  | .token keyStart key tokenStart raw =>
    (inner.insertToken key keyStart tokenStart raw).bind fun _ => unfinished position .argumentEnd
  | .next => unfinished position .argumentEnd

/-- The expression that a text of that many bytes is, if it may end here. -/
def State.finish (s : State) (position : Nat) : Except Problem Tree :=
  match s.mode with
  | .term => unfinished position .name
  | .name _ _ => unfinished position (.mark '(')
  | .openParenthesis _ _ => unfinished position (.mark '(')
  | .call _ _ inner mode => endInCall inner mode position
  | .operator tree => if s.groups.isEmpty then .ok tree else unfinished position (.mark ')')

/-- Takes characters from a byte of the text on. -/
def State.run (s : State) (position : Nat) : List Char → Except Problem (State × Nat)
  | [] => .ok (s, position)
  | c :: rest =>
    match s.step position c with
    | .ok next => next.run (position + c.utf8Size) rest
    | .error problem => .error problem

/-- The expression that a text is, or the first problem with it. -/
def read (text : String) : Except Problem Tree :=
  (State.run {} 0 text.toList).bind fun (s, position) => s.finish position

end Almanac.Expression

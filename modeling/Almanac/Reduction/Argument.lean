import Almanac.Binary64.Reading
import Almanac.Reduction.Moment

/-!
Checking the arguments of calls. A call fails with all problems of its arguments, not only the
first: the names that its schema does not know come first, in ascending order, and then the fields
in the order of the schema. The fields are checked in that order, each with the generator as the
fields before it leave it. What the schema makes of the fields counts only if there is no such
problem.
-/

namespace Almanac

open Expression

/-- An argument: the value as written and, if that names a section, how the section comes about. -/
structure Argument where
  value : Value
  named : Option (Reduction SpecError Section)

def integerOf (value : Value) : Except Reason Int :=
  match value with
  | .integer n => .ok n
  | .text s =>
    match Text.readWord64? s.toList with
    | some n => .ok n
    | none => .error (.notInteger value)
  | _ => .error (.notInteger value)

def numberOf (value : Value) : Except Reason Binary64 :=
  match value with
  | .integer n => .ok (Binary64.ofInt n)
  | .text s =>
    match Binary64.read? s.toList with
    | some x => .ok x
    | none => .error (.notNumber value)
  | _ => .error (.notNumber value)

def textOf (value : Value) : Except Reason String :=
  match value with
  | .text s => .ok s
  | .integer n => .ok (Text.integer n)
  | .boolean b => .ok (booleanText b)
  | _ => .error (.notText value)

def itemsOf (value : Value) : Except Reason (List String) :=
  match value with
  | .list items => .ok items
  | .text s => .ok [s]
  | .integer n => .ok [Text.integer n]
  | _ => .error (.notList value)

def checkBounds (bounds : Bounds) (n : Int) : Except Reason Int :=
  if bounds.contains n then .ok n else .error (.outOfBounds bounds n)

def checkChoice (choices : List String) (s : String) : Except Reason String :=
  if s ∈ choices then .ok s else .error (.notChoice choices s)

/-- Checks the items of a list, from that position on: all that pass, and all problems. -/
def checkItems {α : Type} (check : String → Except Reason α) :
    Nat → List String → List α × List (Nat × Reason)
  | _, [] => ([], [])
  | index, item :: rest =>
    let (values, problems) := checkItems check (index + 1) rest
    match check item with
    | .ok value => (value :: values, problems)
    | .error reason => (values, (index, reason) :: problems)

def checkList {α : Type} (check : String → Except Reason α) (items : List String) :
    Except Reason (List α) :=
  match checkItems check 0 items with
  | (values, []) => .ok values
  | (_, problems) => .error (.items problems)

def Argument.toSection (a : Argument) : Reduction Reason Section :=
  match a.named with
  | some reduction => reduction.mapError .nested
  | none => .fail (.notSection a.value)

/-- Whether a section is of one of the wanted variants. -/
def checkKind (wanted : List Section.Kind) (s : Section) : Except Reason Section :=
  if s.kind ∈ wanted then .ok s else .error (.wrongKind wanted s.kind)

/-- What a field of that kind makes of an argument. -/
def FieldKind.check (ctx : Context) (kind : FieldKind) (a : Argument) :
    Reduction Reason FieldValue :=
  match kind with
  | .integer => .ofExcept ((integerOf a.value).map .integer)
  | .integerWithin bounds =>
    .ofExcept (((integerOf a.value).bind (checkBounds bounds)).map .integer)
  | .number => .ofExcept ((numberOf a.value).map .number)
  | .text => .ofExcept ((textOf a.value).map .text)
  | .choice options => .ofExcept (((textOf a.value).bind (checkChoice options)).map .text)
  | .integersWithin bounds =>
    .ofExcept (((itemsOf a.value).bind (checkList fun item =>
      (integerOf (.text item)).bind (checkBounds bounds))).map .integers)
  | .choices options =>
    .ofExcept (((itemsOf a.value).bind (checkList (checkChoice options))).map .texts)
  | .subsection kinds => do
    let s ← a.toSection
    let simple ← (s.simplify ctx).mapError .nested
    .ofExcept ((checkKind kinds simple).map .subsection)
  | .bound forever => .bound <$> (a.toSection >>= Section.toBound ctx forever)

/-- What a field makes of the arguments of a call: a value, a problem, or neither. -/
def Field.check (ctx : Context) (args : List (String × Argument)) (field : Field) :
    Reduction Reason (Option FieldValue) :=
  match Keyed.get? args field.name with
  | some a => some <$> field.kind.check ctx a
  | none => if field.required then .fail .missing else pure none

/-- What came of checking a field, under the name of the field. -/
abbrev FieldOutcome := String × Except Reason (Option FieldValue)

/-- Checks fields one after the other, also behind one that fails. -/
def checkFields {ε : Type} (ctx : Context) (args : List (String × Argument)) :
    List Field → Reduction ε (List FieldOutcome)
  | [] => pure []
  | field :: rest => do
    let outcome ← (field.check ctx args).attempt
    let others ← checkFields ctx args rest
    pure ((field.name, outcome) :: others)

def fieldProblems (outcomes : List FieldOutcome) : List ArgumentProblem :=
  outcomes.filterMap fun
    | (name, .error reason) => some (name, reason)
    | (_, .ok _) => none

def fieldValues (outcomes : List FieldOutcome) : Fields :=
  outcomes.foldl (fun fields outcome =>
    match outcome with
    | (name, .ok (some value)) => fields.insert name value
    | _ => fields) {}

namespace Schema

/-- The names of arguments that the schema does not know. -/
def unexpected (schema : Schema) (args : List (String × Argument)) : List ArgumentProblem :=
  ((Keyed.keys args).filter fun name => (schema.field? name).isNone).map
    fun name => (name, .unexpectedArgument)

/-- What a call of `name` comes to by what came of checking its fields. -/
def conclude (schema : Schema) (name : String) (args : List (String × Argument))
    (outcomes : List FieldOutcome) : Except SpecError Section :=
  match schema.unexpected args ++ fieldProblems outcomes with
  | [] => (schema.build (fieldValues outcomes)).mapError (.badArguments name)
  | problems => .error (.badArguments name problems)

/-- The section that a call of `name` with these arguments makes. -/
def apply (schema : Schema) (ctx : Context) (name : String) (args : List (String × Argument)) :
    Reduction SpecError Section := do
  let outcomes ← checkFields ctx args schema.fields
  .ofExcept (schema.conclude name args outcomes)

end Schema

/-- The section that a call makes, by the schema that the registry has for its name. -/
def Context.call (ctx : Context) (name : String) (args : List (String × Argument)) :
    Reduction SpecError Section :=
  match ctx.registry.resolve? name with
  | some schema => schema.apply ctx name args
  | none => .fail (.unknownSection name ctx.registry.names)

mutual

/-- The section that a value names, if it names one. -/
def Context.named? (ctx : Context) : Value → Option (Reduction SpecError Section)
  | .call name args => some (ctx.call name (ctx.arguments args))
  | .given s => some (pure s)
  | _ => none

def Context.arguments (ctx : Context) : List (String × Value) → List (String × Argument)
  | [] => []
  | argument :: rest => ctx.argument argument :: ctx.arguments rest

def Context.argument (ctx : Context) : String × Value → String × Argument
  | (key, value) => (key, ⟨value, ctx.named? value⟩)

end

def Context.callSection (ctx : Context) (name : String) (args : List (String × Value)) :
    Reduction SpecError Section :=
  ctx.call name (ctx.arguments args)

end Almanac

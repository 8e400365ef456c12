import Almanac.Error
import Almanac.Schema.Fields

/-!
Schemas: which fields the arguments of a call may fill, and how a section is built from them.
-/

namespace Almanac

inductive FieldKind where
  | integer
  | integerWithin (bounds : Bounds)
  | number
  | text
  | choice (choices : List String)
  | integersWithin (bounds : Bounds)
  | choices (choices : List String)
  /-- A section, simplified, of one of these variants. -/
  | subsection (kinds : List Section.Kind)
  /-- A section that comes down to a moment; where `forever` holds, one that never comes too. -/
  | bound (forever : Bool)

structure Field where
  name : String
  kind : FieldKind
  required : Bool

/-- A field that every call fills. -/
def Field.must (name : String) (kind : FieldKind) : Field :=
  ⟨name, kind, true⟩

/-- A field that a call may leave out. -/
def Field.may (name : String) (kind : FieldKind) : Field :=
  ⟨name, kind, false⟩

/-- Fields in the order in which problems are told, and the section that they make up. -/
structure Schema where
  fields : List Field
  build : Fields → Except (List ArgumentProblem) Section

def Schema.field? (s : Schema) (name : String) : Option Field :=
  s.fields.find? (·.name = name)

def Bounds.within (lower upper : Int) : Bounds :=
  ⟨lower, some upper⟩

def Bounds.natural : Bounds :=
  ⟨0, none⟩

/-- Whether a number is neither below nor above the bounds. -/
def Bounds.contains (b : Bounds) (n : Int) : Bool :=
  b.lower ≤ n && b.upper.all (n ≤ ·)

end Almanac

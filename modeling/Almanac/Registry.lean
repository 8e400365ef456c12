import Almanac.Schema.Default

/-!
The registry of sections: schemas under the names that calls use.
-/

namespace Almanac

structure Registry where
  schemas : List (String × Schema) := []

namespace Registry

def empty : Registry := {}

/-- Adds a section, in place of an earlier one of that name. -/
def register (r : Registry) (name : String) (schema : Schema) : Registry :=
  ⟨Keyed.insert name schema r.schemas⟩

def resolve? (r : Registry) (name : String) : Option Schema :=
  Keyed.get? r.schemas name

def names (r : Registry) : List String :=
  Keyed.keys r.schemas

def size (r : Registry) : Nat :=
  r.schemas.length

def isEmpty (r : Registry) : Bool :=
  r.schemas.isEmpty

/-- The registry of the sections that every expression may use. -/
def defaults : Registry :=
  Schema.defaults.foldl (fun r entry => r.register entry.1 entry.2) empty

end Registry

end Almanac

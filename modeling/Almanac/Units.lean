import Almanac.Error

/-!
Units by their names.
-/

namespace Almanac.Calendar.TimeUnit

def read (name : String) : Except SpecError TimeUnit :=
  match ofName? name with
  | some u => .ok u
  | none => .error (.unknownUnit name name)

/-- The finer of two units: amounts of either are whole numbers of it. -/
def readFiner (first second : String) : Except SpecError TimeUnit :=
  match ofName? first, ofName? second with
  | some a, some b => .ok (a.finer b)
  | _, _ => .error (.unknownUnit first second)

end Almanac.Calendar.TimeUnit

import Almanac.Error
import Almanac.Literal.Reading

/-!
Literals from their text.
-/

namespace Almanac.WrittenLiteral

def read (kind : Literal.Kind) (written : String) : Except SpecError WrittenLiteral :=
  match Literal.read kind written.toList with
  | .ok value => .ok ⟨written, value⟩
  | .error fault => .error (.badLiteral kind written fault)

end Almanac.WrittenLiteral

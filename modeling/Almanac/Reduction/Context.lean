import Almanac.Registry

/-!
What the meaning of an expression depends on besides its text and the numbers drawn.
-/

namespace Almanac

/-- The sections that calls may name and the moment that the clock shows. -/
structure Context where
  registry : Registry
  now : Calendar.Instant

end Almanac

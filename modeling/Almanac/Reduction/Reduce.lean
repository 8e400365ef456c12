import Almanac.Expression.Reader
import Almanac.Reduction.Argument
import Almanac.Section.Join

/-!
Reducing an expression to one section. The calls become sections without shorthand, and so does the
result of every join.
-/

namespace Almanac

open Expression

/-- The section that a written call makes, without shorthand. -/
def Context.simpleSection (ctx : Context) (name : String) (args : List (String × Value)) :
    Reduction SpecError Section :=
  ctx.callSection name args >>= Section.simplify ctx

/-- The section that an expression comes down to. -/
def Expression.Tree.reduce (ctx : Context) : Tree → Reduction SpecError Section
  | .call name args _ => ctx.simpleSection name args
  | .join joiner left right => do
    let left ← left.reduce ctx >>= Section.simplify ctx
    let right ← right.reduce ctx >>= Section.simplify ctx
    .ofExcept (Section.join joiner left right) >>= Section.simplify ctx

/-- Refuses a section that does not say when something happens. -/
def Section.checkComplete (s : Section) : Except SpecError Section :=
  if s.isParameterOnly then .error (.parameterOnly s.kind)
  else if s.tellsWhen then .ok s
  else .error (.incomplete s.specifies)

/-- The section that an expression comes down to; where `complete` holds, it has to say when
something happens. -/
def Expression.Tree.meaning (ctx : Context) (complete : Bool) (tree : Tree) :
    Reduction SpecError Section := do
  let s ← tree.reduce ctx
  .ofExcept (if complete then s.checkComplete else .ok s)

/-- The section that a text stands for. -/
def Section.ofText (ctx : Context) (complete : Bool) (text : String) :
    Reduction SpecError Section :=
  .ofExcept ((Expression.read text).mapError .unreadable) >>= Tree.meaning ctx complete

end Almanac

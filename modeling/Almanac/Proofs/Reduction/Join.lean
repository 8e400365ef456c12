import Almanac.Proofs.Reduction.Simple
import Almanac.Reduction.Reduce

/-!
Joins in an expression. Both sides are without shorthand before they are joined, and so is what
they make.
-/

namespace Almanac

open Expression Reduction

variable {ctx : Context} {joiner : Joiner} {left right s : Section}

namespace Section

/-- The join of two sections, where neither they nor what they make may be shorthand. -/
def joinSimply (ctx : Context) (joiner : Joiner) (left right : Section) :
    Reduction SpecError Section := do
  let left ← left.simplify ctx
  let right ← right.simplify ctx
  .ofExcept (join joiner left right) >>= simplify ctx

theorem canReturn_joinSimply (h : (joinSimply ctx joiner left right).CanReturn s) :
    ∃ simpleLeft simpleRight joined, (left.simplify ctx).CanReturn simpleLeft ∧
      (right.simplify ctx).CanReturn simpleRight ∧
      join joiner simpleLeft simpleRight = .ok joined ∧ (joined.simplify ctx).CanReturn s := by
  obtain ⟨simpleLeft, hleft, h⟩ := exists_of_canReturn_bind h
  obtain ⟨simpleRight, hright, h⟩ := exists_of_canReturn_bind h
  obtain ⟨joined, hjoined, h⟩ := exists_of_canReturn_bind h
  exact ⟨simpleLeft, simpleRight, joined, hleft, hright, canReturn_ofExcept_iff.1 hjoined, h⟩

end Section

namespace Expression.Tree

variable {left right : Tree}

theorem isSimple_of_reduce {tree : Tree} (h : (tree.reduce ctx).CanReturn s) :
    s.kind.isSimple = true := by
  cases tree with
  | call name args span =>
    obtain ⟨_, -, h⟩ := exists_of_canReturn_bind h
    exact Section.isSimple_of_simplify h
  | join joiner left right =>
    obtain ⟨_, -, h⟩ := exists_of_canReturn_bind h
    obtain ⟨_, -, h⟩ := exists_of_canReturn_bind h
    obtain ⟨_, -, h⟩ := exists_of_canReturn_bind h
    exact Section.isSimple_of_simplify h

/-- What an expression comes down to is simple already. -/
theorem reduce_bind_simplify (ctx : Context) (tree : Tree) :
    tree.reduce ctx >>= Section.simplify ctx = tree.reduce ctx := by
  refine (bind_congr_of_canReturn fun s hs => ?_).trans (bind_pure _)
  exact Section.simplify_eq_self (isSimple_of_reduce hs) ctx

/-- What two expressions come down to, the left one first, is joined as it is. -/
theorem reduce_join (ctx : Context) (joiner : Joiner) (left right : Tree) :
    (join joiner left right).reduce ctx = (do
      let reducedLeft ← left.reduce ctx
      let reducedRight ← right.reduce ctx
      .ofExcept (Section.join joiner reducedLeft reducedRight) >>= Section.simplify ctx) := by
  rw [reduce]
  simp only [reduce_bind_simplify]

theorem exists_of_run_reduce_join {g g' : Generator}
    (h : ((join joiner left right).reduce ctx).run g = .ok (.ok s, g')) :
    ∃ reducedLeft between reducedRight after joined,
      (left.reduce ctx).run g = .ok (.ok reducedLeft, between) ∧
      (right.reduce ctx).run between = .ok (.ok reducedRight, after) ∧
      Section.join joiner reducedLeft reducedRight = .ok joined ∧
      (joined.simplify ctx).run after = .ok (.ok s, g') := by
  rw [reduce_join] at h
  obtain ⟨reducedLeft, between, hleft, h⟩ := run_bind_eq_ok_iff.1 h
  obtain ⟨reducedRight, after, hright, h⟩ := run_bind_eq_ok_iff.1 h
  obtain ⟨joined, _, hjoined, h⟩ := run_bind_eq_ok_iff.1 h
  obtain ⟨hjoin, rfl⟩ := run_ofExcept_eq_ok_iff.1 hjoined
  exact ⟨reducedLeft, between, reducedRight, after, joined, hleft, hright, hjoin, h⟩

theorem exists_of_canReturn_reduce_join
    (h : ((join joiner left right).reduce ctx).CanReturn s) :
    ∃ reducedLeft reducedRight joined, (left.reduce ctx).CanReturn reducedLeft ∧
      (right.reduce ctx).CanReturn reducedRight ∧
      Section.join joiner reducedLeft reducedRight = .ok joined ∧
      (joined.simplify ctx).CanReturn s := by
  obtain ⟨g, g', h⟩ := h
  obtain ⟨_, _, _, _, joined, hleft, hright, hjoined, h⟩ := exists_of_run_reduce_join h
  exact ⟨_, _, joined, canReturn_of_run hleft, canReturn_of_run hright, hjoined,
    canReturn_of_run h⟩

end Expression.Tree

end Almanac

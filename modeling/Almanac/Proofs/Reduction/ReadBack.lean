import Almanac.Proofs.Expression.Calls
import Almanac.Proofs.Reduction.Shown

/-!
What is shown of a section reads back. All calls of a text that are shown as calls make themselves
again, and alternative intervals come down to themselves.
-/

namespace Almanac

open Period Expression Reduction

variable {ctx : Context} {is : List Interval}

/-- An interval of which something is written, in numbers that can be read. -/
structure Period.Interval.IsShown (i : Interval) : Prop where
  isLegible : i.IsLegible
  ne_zero : i ≠ .duration {}

/-- The tree comes down to the alternatives, whatever the clock shows, and draws nothing. -/
def Expression.Tree.IsAlternatives (tree : Tree) (is : List Interval) : Prop :=
  ∀ ctx : Context, ctx.registry = .defaults →
    ∃ s, tree.reduce ctx = pure s ∧ s.alternatives? = some is

theorem exists_spells_term_interval {i : Interval} (hi : i.IsShown) (start : Nat) :
    ∃ tree, Spells i.text.toList (.term start tree) ∧ tree.IsAlternatives [i] := by
  obtain ⟨name, args, hspells, hmade⟩ := isCalledBy_interval hi.isLegible hi.ne_zero
  refine ⟨_, .term hspells, fun ctx hregistry => ⟨.interval i, ?_, rfl⟩⟩
  rw [Tree.reduce, Context.simpleSection, hmade ctx hregistry]
  rfl

theorem Expression.Tree.IsAlternatives.or {left right : Tree} {further : List Interval}
    (hleft : left.IsAlternatives is) (hright : right.IsAlternatives further) :
    (Tree.join .or left right).IsAlternatives (is ++ further) := by
  intro ctx hregistry
  obtain ⟨s, hs, his⟩ := hleft ctx hregistry
  obtain ⟨other, hother, hfurther⟩ := hright ctx hregistry
  refine ⟨.intervals (is ++ further), ?_, rfl⟩
  rw [reduce_join, hs, pure_bind, hother, pure_bind]
  change ofExcept (Section.or s other) >>= Section.simplify ctx = _
  rw [Section.or_eq_intervals his hfurther]
  rfl

/-- Induction on the alternatives from the last one on, as chains group to the left. -/
theorem exists_spells_chain_intervals (hsome : is ≠ []) (his : ∀ i ∈ is, i.IsShown) (start : Nat) :
    ∃ tree, Spells (" | ".intercalate (is.map Interval.text)).toList (.chain start tree) ∧
      tree.IsAlternatives is := by
  induction is using List.reverseRecOn with
  | nil => exact absurd rfl hsome
  | append_singleton rest last ih =>
    have hlast := his last (List.mem_append_right rest (List.mem_singleton_self last))
    by_cases hrest : rest = []
    · subst hrest
      obtain ⟨tree, hspells, hreduce⟩ := exists_spells_term_interval hlast start
      exact ⟨tree, by simpa using Spells.single hspells, hreduce⟩
    · obtain ⟨left, hleft, hbefore⟩ := ih hrest fun i hi => his i (List.mem_append_left _ hi)
      obtain ⟨right, hright, hreduce⟩ := exists_spells_term_interval hlast _
      have hblank : IsBlanks [' '] := IsBlanks.cons rfl IsBlanks.nil
      have hmap : rest.map Interval.text ≠ [] := by simpa using hrest
      have hspells : Spells _ (.chain start (.join .or left right)) :=
        .join hleft hblank hblank hright
      refine ⟨.join .or left right, ?_, hbefore.or hreduce⟩
      rw [List.map_append, String.intercalate_append_of_ne_nil hmap (by simp)]
      simpa [Joiner.sign, -String.toList_intercalate] using hspells

theorem Section.eq_intervals_of_alternatives? {s : Section} (h : s.alternatives? = some is)
    (hlength : 2 ≤ is.length) : s = .intervals is := by
  cases s with
  | intervals alternatives => cases h; rfl
  | interval i => cases h; simp at hlength
  | _ => cases h

/-- Alternative intervals are shown in parentheses, which keep them together. -/
theorem exists_read_intervals (hlength : 2 ≤ is.length) (his : ∀ i ∈ is, i.IsShown) :
    ∃ tree, Expression.read (Section.intervals is).text = .ok tree ∧
      ∀ ctx : Context, ctx.registry = .defaults → tree.reduce ctx = pure (.intervals is) := by
  have hsome : is ≠ [] := List.ne_nil_of_length_pos (by omega)
  obtain ⟨tree, hspells, hreduce⟩ :=
    exists_spells_chain_intervals hsome his (0 + String.utf8Len ('(' :: []))
  have hparentheses := Spells.parentheses IsBlanks.nil hspells IsBlanks.nil
  have htext : (Section.intervals is).text =
      "(" ++ " | ".intercalate (is.map Interval.text) ++ ")" := if_pos hlength
  refine ⟨tree, read_of_spells (.single ?_), fun ctx hregistry => ?_⟩
  · rw [htext]
    simpa [-String.toList_intercalate] using hparentheses
  · obtain ⟨s, hs, halternatives⟩ := hreduce ctx hregistry
    rw [hs, Section.eq_intervals_of_alternatives? halternatives hlength]

/-- With the names of the defaults, what is shown of the sections that a text is made of can be read
again, whatever was drawn for them. A call makes the section that it is shown as, and alternatives
of intervals come down to the same intervals. Neither depends on the clock any more, and nothing
more is drawn. -/
theorem sections_read_back (hregistry : ctx.registry = .defaults) {text : String} {tree : Tree}
    (hread : Expression.read text = .ok tree) :
    (∀ call ∈ tree.calls, ∀ s g g', (ctx.callSection call.1 call.2).run g = .ok (.ok s, g') →
      s.IsShownAsCall →
      ∃ name args span, Expression.read s.callText = .ok (.call name args span) ∧
        ∀ other : Context, other.registry = .defaults → other.callSection name args = pure s) ∧
    ∀ complete is g g', (Section.ofText ctx complete text).run g = .ok (.ok (.intervals is), g') →
      2 ≤ is.length → (∀ i ∈ is, i ≠ .duration {}) →
      ∀ other : Context, other.registry = .defaults →
        Section.ofText other false (Section.intervals is).text = pure (.intervals is) := by
  obtain ⟨_, _, _, -, -, -, hspells⟩ := isExpression_of_read_eq_ok hread
  constructor
  · intro call hcall s g g' hs hshown
    obtain ⟨_, hcall⟩ := exists_spells_of_mem_calls hspells hcall
    have hwell := isSound_of_spells hregistry hcall s (canReturn_of_run hs)
    have hlegible := isLegible_of_spells hregistry hcall s (canReturn_of_run hs)
    obtain ⟨name, args, hagain, hmade⟩ := Section.isCalledBy_callText hwell hlegible hshown
    exact ⟨name, args, _, read_of_spells (.single (.term hagain)), hmade⟩
  · intro complete is g g' hmade hlength hzero other hother
    obtain ⟨tree, hread, hreduce, -⟩ := Section.exists_reduce_of_ofText (canReturn_of_run hmade)
    obtain ⟨_, _, _, -, -, -, hspells⟩ := isExpression_of_read_eq_ok hread
    have hlegible : (Section.intervals is).IsLegible :=
      isLegible_of_spells hregistry hspells _ hreduce
    obtain ⟨again, hagain, hreduceAgain⟩ :=
      exists_read_intervals hlength fun i hi => ⟨hlegible i hi, hzero i hi⟩
    rw [Section.ofText, hagain]
    change again.reduce other >>= _ = _
    rw [hreduceAgain other hother]
    rfl

set_option maxRecDepth 1000 in
/-- One range that is drawn from twice, and the two numbers that are drawn. -/
theorem sections_read_back_drawn_twice :
    let ctx : Context := { registry := .defaults, now := .midnight 0 (by decide) }
    let days := "range(min: amount(num: 1, size: day), max: amount(num: 5, size: day))"
    let text := "interval(every: " ++ days ++ ") | interval(every: " ++ days ++ ")"
    let is : List Interval := [.amount ⟨1, .day⟩, .amount ⟨2, .day⟩]
    (∃ g', (Section.ofText ctx false text).run .rising = .ok (.ok (.intervals is), g')) ∧
      (∃ name args span, Expression.read days = .ok (.call name args span) ∧
        ∀ other : Context, other.registry = .defaults →
          other.callSection name args = pure (.range ⟨1, .day⟩ ⟨5, .day⟩)) ∧
      ∀ other : Context, other.registry = .defaults →
        Section.ofText other false ("(interval(every: amount(num: 1, size: day)) | " ++
          "interval(every: amount(num: 2, size: day)))") = pure (.intervals is) := by
  intro ctx days text is
  have hregistry : ctx.registry = .defaults := rfl
  have hshape : ((Section.ofText ctx false text).result? .rising).map (·.1.alternatives?) =
      some (some is) := by decide +kernel
  obtain ⟨s, g', hmade, halternatives⟩ := exists_of_map_result?_eq_some hshape
  obtain rfl := Section.eq_intervals_of_alternatives? halternatives (by decide)
  let amountOf (n : Int) : Call := ("amount", [("num", .integer n), ("size", .text "day")])
  let range : Call := ("range",
    [("max", .call (amountOf 5).1 (amountOf 5).2), ("min", .call (amountOf 1).1 (amountOf 1).2)])
  let tree : Tree := .join .or (.call "interval" [("every", .call range.1 range.2)] ⟨0, 86⟩)
    (.call "interval" [("every", .call range.1 range.2)] ⟨89, 175⟩)
  have hread : Expression.read text = .ok tree := by
    simp only [text, days, tree, range, amountOf]
    rfl
  have hcall : range ∈ tree.calls :=
    List.mem_append_left _ (List.mem_cons_of_mem _ (List.mem_cons_self ..))
  have hrange : ctx.callSection range.1 range.2 = pure (.range ⟨1, .day⟩ ⟨5, .day⟩) := by rfl
  have htext : (Section.range ⟨1, .day⟩ ⟨5, .day⟩).callText = days := by decide +kernel
  have hlistText : (Section.intervals is).text = "(interval(every: amount(num: 1, size: day)) | " ++
      "interval(every: amount(num: 2, size: day)))" := by
    decide +kernel
  obtain ⟨hcalls, hintervals⟩ := sections_read_back hregistry hread
  have hdays := hcalls range hcall (.range ⟨1, .day⟩ ⟨5, .day⟩) .rising .rising
    (by rw [hrange, run_pure]) trivial
  have hagain := hintervals false is .rising g' hmade (by decide) (by decide)
  rw [htext] at hdays
  rw [hlistText] at hagain
  exact ⟨⟨g', hmade⟩, hdays, hagain⟩

end Almanac

import Almanac.Proofs.Expression.Progress
import Almanac.Proofs.Reduction.Argument
import Almanac.Proofs.Reduction.Join

/-!
The form that every expression comes down to. By induction on the grammar, all sections that the
parts of a text stand for are well-formed; and whatever the last step is, its result has been
simplified.
-/

namespace Almanac

open Expression Reduction

/-- Simple and well-formed. -/
structure Section.IsNormal (s : Section) : Prop where
  isSimple : s.kind.isSimple = true
  isWellFormed : s.IsWellFormed

theorem Section.IsWellFormed.isNormal_simplify {ctx : Context} {s simple : Section}
    (hs : s.IsWellFormed) (h : (s.simplify ctx).CanReturn simple) : simple.IsNormal :=
  ⟨isSimple_of_simplify h, hs.simplify h⟩

variable {ctx : Context}

namespace Expression

/-- The sections that come from the phrase are well-formed, those of whole terms even normal. -/
def Phrase.IsSound (ctx : Context) : Phrase → Prop
  | .call name args => ∀ s, (ctx.callSection name args).CanReturn s → s.IsWellFormed
  | .arguments args => ∀ argument ∈ args, (ctx.argument argument).2.IsWellFormed
  | .argument key v => (ctx.argument (key, v)).2.IsWellFormed
  | .value v => ∀ x s, ctx.named? v = some x → x.CanReturn s → s.IsWellFormed
  | .term _ tree => ∀ s, (tree.reduce ctx).CanReturn s → s.IsNormal
  | .chain _ tree => ∀ s, (tree.reduce ctx).CanReturn s → s.IsNormal

theorem isSound_call (hregistry : ctx.registry = .defaults) {args : List (String × Value)}
    (hargs : (Phrase.arguments args).IsSound ctx) (name : String) :
    (Phrase.call name (Keyed.ofList args)).IsSound ctx := by
  intro s hs
  exact Context.isWellFormed_of_canReturn_call hregistry
    (Context.forall_mem_arguments_ofList hargs) hs

theorem named?_ofToken (token : List Char) : ctx.named? (.ofToken token) = none := by
  unfold Value.ofToken
  split
  · rfl
  · split
    · rfl
    · split
      · rfl
      · split <;> rfl

/-- Every phrase of the grammar is sound where the names are those of the defaults. -/
theorem isSound_of_spells (hregistry : ctx.registry = .defaults) {w : List Char} {phrase : Phrase}
    (h : Spells w phrase) : phrase.IsSound ctx := by
  induction h with
  | emptyCall hname hbefore hinside =>
    have hnone : (Phrase.arguments []).IsSound ctx := fun _ hmem => nomatch hmem
    exact isSound_call hregistry hnone _
  | call hname hbefore hfirst hargs hlast hdistinct ih => exact isSound_call hregistry ih _
  | firstArgument h ih => exact List.forall_mem_singleton.2 ih
  | furtherArgument hargs hbefore hafter h ihargs ih =>
    exact List.forall_mem_append.2 ⟨ihargs, List.forall_mem_singleton.2 ih⟩
  | argument hkey hbefore hafter h ih =>
    rw [Phrase.IsSound, Context.argument]
    exact ih
  | nested h ih =>
    intro x s hx hs
    rw [Context.named?, Option.some.injEq] at hx
    subst hx
    exact ih s hs
  | token hrun hsome =>
    intro x s hx
    rw [named?_ofToken] at hx
    cases hx
  | term h ih =>
    intro s hs
    obtain ⟨made, hmade, hs⟩ := exists_of_canReturn_bind hs
    exact (ih made hmade).isNormal_simplify hs
  | parentheses hbefore h hafter ih => exact ih
  | single h ih => exact ih
  | join hleft hbefore hafter hright ihleft ihright =>
    intro s hs
    obtain ⟨_, _, joined, hreducedLeft, hreducedRight, hjoined, hsimple⟩ :=
      Tree.exists_of_canReturn_reduce_join hs
    have hwellLeft := (ihleft _ hreducedLeft).isWellFormed
    have hwellRight := (ihright _ hreducedRight).isWellFormed
    exact (hwellLeft.join hwellRight hjoined).isNormal_simplify hsimple

end Expression

theorem Section.checkComplete_eq_ok {s checked : Section} (h : s.checkComplete = .ok checked) :
    checked = s ∧ s.tellsWhen = true := by
  unfold checkComplete at h
  split at h
  · cases h
  · split at h
    case isTrue htells => cases h; exact ⟨rfl, htells⟩
    case isFalse => cases h

/-- What a text stands for is what its tree comes down to, and where it has to be complete the
section says when something happens. -/
theorem Section.exists_reduce_of_ofText {complete : Bool} {text : String} {s : Section}
    (h : (Section.ofText ctx complete text).CanReturn s) :
    ∃ tree, Expression.read text = .ok tree ∧ (tree.reduce ctx).CanReturn s ∧
      (complete = true → s.tellsWhen = true) := by
  obtain ⟨tree, hread, hmeaning⟩ := exists_of_canReturn_bind h
  obtain ⟨reduced, hreduce, hcomplete⟩ := exists_of_canReturn_bind hmeaning
  have hread := eq_ok_of_mapError_eq_ok (canReturn_ofExcept_iff.1 hread)
  have hcomplete := canReturn_ofExcept_iff.1 hcomplete
  cases complete with
  | true =>
    obtain ⟨rfl, htells⟩ := checkComplete_eq_ok hcomplete
    exact ⟨tree, hread, hreduce, fun _ => htells⟩
  | false =>
    cases hcomplete
    exact ⟨tree, hread, hreduce, fun hfalse => nomatch hfalse⟩

/-- What is read comes down to a section in normal form. -/
theorem Expression.isNormal_of_reduce {text : String} {tree : Tree} {s : Section}
    (hregistry : ctx.registry = .defaults) (hread : Expression.read text = .ok tree)
    (hreduce : (tree.reduce ctx).CanReturn s) : s.IsNormal := by
  obtain ⟨_, _, _, -, -, -, hspells⟩ := isExpression_of_read_eq_ok hread
  exact isSound_of_spells hregistry hspells s hreduce

/-- A text with a meaning comes down to a section in normal form, whatever the clock shows and
whatever the generator draws: one that no further simplifying changes, with members in every group,
an interval wherever something recurs and two among alternatives, only numbers that occur in its
filters, and only times that are times of day. -/
theorem Section.isNormal_of_ofText_eq_ok {complete : Bool} {text : String} {s : Section}
    {g g' : Generator} (hregistry : ctx.registry = .defaults)
    (h : (Section.ofText ctx complete text).run g = .ok (.ok s, g')) :
    s.IsNormal ∧ ∀ later, s.simplify later = pure s := by
  obtain ⟨tree, hread, hreduce, -⟩ := exists_reduce_of_ofText (canReturn_of_run h)
  have hnormal := isNormal_of_reduce hregistry hread hreduce
  exact ⟨hnormal, simplify_eq_self hnormal.isSimple⟩

/-- An amount drawn between two amounts that are drawn from one range: the greater one is drawn
second, so there is something in between. -/
theorem Section.isNormal_of_ofText_drawn_twice :
    let ctx : Context := { registry := .defaults, now := .midnight 0 (by decide) }
    let days := "range(min: amount(num: 1, size: day), max: amount(num: 5, size: day))"
    ∃ s g', (Section.ofText ctx false ("range(min: " ++ days ++ ", max: " ++ days ++ ")")).run
        .rising = .ok (.ok s, g') ∧ s.text = "amount(num: 1, size: day)" ∧ s.IsNormal := by
  intro ctx days
  have hshape : ((Section.ofText ctx false
      ("range(min: " ++ days ++ ", max: " ++ days ++ ")")).result? .rising).map (·.1.text) =
        some "amount(num: 1, size: day)" := by decide +kernel
  obtain ⟨s, g', hrun, htext⟩ := exists_of_map_result?_eq_some hshape
  exact ⟨s, g', hrun, htext, (isNormal_of_ofText_eq_ok rfl hrun).1⟩

end Almanac

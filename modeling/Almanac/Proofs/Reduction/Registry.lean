import Almanac.Proofs.Expression.Calls
import Almanac.Proofs.Reduction.Call
import Almanac.Proofs.Reduction.Join

/-!
Expressions in other registries. What a registry holds besides the sections that are called, and in
which order, makes a difference to errors only: they list all names that there are.
-/

namespace Almanac

open Expression

/-- The same clock, with other sections to call. -/
def Context.withRegistry (ctx : Context) (registry : Registry) : Context :=
  { ctx with registry := registry }

namespace Section

variable (ctx : Context) (other : Registry)

theorem simplify_withRegistry (s : Section) :
    s.simplify (ctx.withRegistry other) = s.simplify ctx := by
  cases s <;> rfl

theorem toBound_withRegistry (forever : Bool) :
    toBound (ctx.withRegistry other) forever = toBound ctx forever := by
  funext s
  cases s <;> rfl

end Section

variable {ctx : Context} {other : Registry}

theorem FieldKind.check_withRegistry (kind : FieldKind) (other : Registry) (a : Argument) :
    kind.check (ctx.withRegistry other) a = kind.check ctx a := by
  cases kind with
  | subsection kinds => simp only [check, Section.simplify_withRegistry]
  | bound forever => simp only [check, Section.toBound_withRegistry]
  | _ => rfl

/-- What a field makes of an argument it still makes of it if the argument names that section
otherwise. -/
theorem FieldKind.refines_check (ctx : Context) (kind : FieldKind) (value : Value)
    {named again : Option (Reduction SpecError Section)}
    (hnamed : ∀ x, named = some x → ∃ y, again = some y ∧ x.Refines y) :
    (kind.check ctx ⟨value, named⟩).Refines (kind.check ctx ⟨value, again⟩) := by
  have hsection :
      (Argument.toSection ⟨value, named⟩).Refines (Argument.toSection ⟨value, again⟩) := by
    cases named with
    | none => exact fun _ _ _ h => nomatch h
    | some x =>
      obtain ⟨y, rfl, hrefines⟩ := hnamed x rfl
      exact hrefines.mapError _
  cases kind with
  | subsection kinds => exact hsection.bind fun _ => .refl _
  | bound forever => exact (hsection.bind fun _ => .refl _).map _
  | _ => exact .refl _

section Arguments

variable {args : List (String × Value)}

/-- What a value names in one registry, it names in the other too. -/
def Expression.Value.IsKept (ctx : Context) (other : Registry) (v : Value) : Prop :=
  ∀ x, ctx.named? v = some x → ∃ y, (ctx.withRegistry other).named? v = some y ∧ x.Refines y

theorem Field.refines_check (hargs : ∀ argument ∈ args, argument.2.IsKept ctx other)
    (field : Field) :
    (field.check ctx (ctx.arguments args)).Refines
      (field.check (ctx.withRegistry other) ((ctx.withRegistry other).arguments args)) := by
  unfold check
  rw [Context.get?_arguments, Context.get?_arguments]
  cases hvalue : Keyed.get? args field.name with
  | none => exact .refl _
  | some value =>
    have hkept := hargs _ (Keyed.mem_of_get?_eq_some hvalue)
    have hcheck := FieldKind.refines_check ctx field.kind value hkept
    rw [← field.kind.check_withRegistry other] at hcheck
    exact hcheck.map some

/-- As long as all fields pass their checks, they do so in the other registry, with the same numbers
drawn. -/
theorem Turns.withRegistry (hargs : ∀ argument ∈ args, argument.2.IsKept ctx other)
    {fields : List Field} {outcomes : List FieldOutcome} {g g' : Generator}
    (h : Turns ctx (ctx.arguments args) fields g outcomes g')
    (hpassed : ∀ outcome ∈ outcomes, ∃ v, outcome.2 = .ok v) :
    Turns (ctx.withRegistry other) ((ctx.withRegistry other).arguments args) fields g outcomes
      g' := by
  induction h with
  | done => exact .done _
  | @turn field _ _ _ _ _ _ hcheck _ ih =>
    obtain ⟨⟨v, rfl⟩, hrest⟩ := List.forall_mem_cons.1 hpassed
    exact .turn (Field.refines_check hargs field _ _ _ hcheck) (ih hrest)

theorem Schema.refines_apply (hargs : ∀ argument ∈ args, argument.2.IsKept ctx other)
    (schema : Schema) (name : String) :
    (schema.apply ctx name (ctx.arguments args)).Refines
      (schema.apply (ctx.withRegistry other) name ((ctx.withRegistry other).arguments args)) := by
  intro g s g' h
  obtain ⟨hknown, outcomes, hturns, hpassed, hbuild⟩ := run_apply_eq_ok_iff.1 h
  refine run_apply_eq_ok_iff.2
    ⟨?_, outcomes, hturns.withRegistry hargs hpassed, hpassed, hbuild⟩
  simp only [Context.arguments_eq_map, List.forall_mem_map, Context.fst_argument] at hknown ⊢
  exact hknown

theorem Context.refines_callSection {name : String}
    (hname : other.resolve? name = ctx.registry.resolve? name)
    (hargs : ∀ argument ∈ args, argument.2.IsKept ctx other) :
    (ctx.callSection name args).Refines ((ctx.withRegistry other).callSection name args) := by
  unfold callSection call
  have hresolve : (ctx.withRegistry other).registry.resolve? name = ctx.registry.resolve? name :=
    hname
  rw [hresolve]
  cases ctx.registry.resolve? name with
  | none => exact fun _ _ _ h => nomatch h
  | some schema => exact schema.refines_apply hargs name

end Arguments

namespace Expression

/-- The other registry has the same schema for the name of each call, or no schema either. -/
def AgreeOn (registry other : Registry) (calls : List Call) : Prop :=
  ∀ call ∈ calls, other.resolve? call.1 = registry.resolve? call.1

mutual

/-- Induction on the value, as its nested calls are resolved before it. -/
theorem Value.isKept_of_agreeOn : (v : Value) → AgreeOn ctx.registry other v.calls →
    v.IsKept ctx other
  | .call name args, hagree => by
    intro x hx
    rw [Context.named?, Option.some.injEq] at hx
    subst hx
    obtain ⟨hname, hnested⟩ := List.forall_mem_cons.1 hagree
    refine ⟨(ctx.withRegistry other).callSection name args, ?_, ?_⟩
    · rw [Context.named?]
      rfl
    · exact Context.refines_callSection hname (isKept_of_agreeOn_arguments args hnested)
  | .given s, _ => by
    intro x hx
    rw [Context.named?, Option.some.injEq] at hx
    subst hx
    exact ⟨_, by rw [Context.named?], .refl _⟩
  | .text _, _ | .integer _, _ | .boolean _, _ | .list _, _ => fun _ hx => nomatch hx

theorem isKept_of_agreeOn_arguments : (args : List (String × Value)) →
    AgreeOn ctx.registry other (callsOfArguments args) →
    ∀ argument ∈ args, argument.2.IsKept ctx other
  | [], _ => nofun
  | argument :: rest, hagree => by
    obtain ⟨hfirst, hrest⟩ := List.forall_mem_append.1 hagree
    exact List.forall_mem_cons.2 ⟨isKept_of_agreeOn_argument argument hfirst,
      isKept_of_agreeOn_arguments rest hrest⟩

theorem isKept_of_agreeOn_argument : (argument : String × Value) →
    AgreeOn ctx.registry other (callsOfArgument argument) → argument.2.IsKept ctx other
  | (_, v), hagree => v.isKept_of_agreeOn hagree

end

namespace Tree

theorem refines_reduce : (tree : Tree) → AgreeOn ctx.registry other tree.calls →
    (tree.reduce ctx).Refines (tree.reduce (ctx.withRegistry other))
  | .call name args span, hagree => by
    obtain ⟨hname, hnested⟩ := List.forall_mem_cons.1 hagree
    have hmade := Context.refines_callSection hname (isKept_of_agreeOn_arguments args hnested)
    refine hmade.bind fun made => ?_
    rw [Section.simplify_withRegistry]
    exact .refl _
  | .join joiner left right, hagree => by
    obtain ⟨hleft, hright⟩ := List.forall_mem_append.1 hagree
    rw [reduce_join, reduce_join]
    refine (refines_reduce left hleft).bind fun reducedLeft =>
      (refines_reduce right hright).bind fun reducedRight => .bind (.refl _) fun joined => ?_
    rw [Section.simplify_withRegistry]
    exact .refl _

theorem refines_meaning {tree : Tree} (complete : Bool)
    (hagree : AgreeOn ctx.registry other tree.calls) :
    (tree.meaning ctx complete).Refines (tree.meaning (ctx.withRegistry other) complete) :=
  (refines_reduce tree hagree).bind fun _ => .refl _

/-- Two registries that agree on all names that an expression calls, nested calls included, give it
the same meaning where it has one, whatever else they hold and in whatever order. From the same
state of the generator on the same numbers are drawn, so it is left in the same state too. -/
theorem meaning_eq_ok_iff_of_agreeOn {tree : Tree} {complete : Bool} {s : Section}
    {g g' : Generator} (hagree : AgreeOn ctx.registry other tree.calls) :
    (tree.meaning (ctx.withRegistry other) complete).run g = .ok (.ok s, g') ↔
      (tree.meaning ctx complete).run g = .ok (.ok s, g') := by
  have hback : AgreeOn (ctx.withRegistry other).registry ctx.registry tree.calls :=
    fun call hcall => (hagree call hcall).symm
  exact ⟨refines_meaning complete hback g s g', refines_meaning complete hagree g s g'⟩

/-- A small registry of its own, filled in another order, has all that an interval of some days
needs, and as many days are drawn. -/
theorem meaning_eq_ok_some_days_in_small_registry :
    let ctx : Context := { registry := .defaults, now := .midnight 0 (by decide) }
    let small := (((Registry.empty.register "range" Schema.range).register "interval"
      Schema.interval).register "soon" Schema.amount).register "amount" Schema.amount
    let tree : Tree := .call "interval"
      [("every", .call "range"
        [("max", .call "amount" [("num", .integer 9), ("size", .text "day")]),
          ("min", .call "amount" [("num", .integer 2), ("size", .text "day")])])] ⟨0, 86⟩
    read "interval(every: range(min: amount(num: 2, size: day), max: amount(num: 9, size: day)))" =
        .ok tree ∧
      AgreeOn ctx.registry small tree.calls ∧
      ∃ s g', (tree.meaning (ctx.withRegistry small) false).run .rising =
          .ok (.ok s, g') ∧
        s.text = "interval(every: amount(num: 2, size: day))" := by
  intro ctx small tree
  have hagree : AgreeOn ctx.registry small tree.calls :=
    List.forall_mem_cons.2 ⟨rfl, List.forall_mem_cons.2 ⟨rfl,
      List.forall_mem_cons.2 ⟨rfl, List.forall_mem_singleton.2 rfl⟩⟩⟩
  have hshape : ((tree.meaning ctx false).result? .rising).map (·.1.text) =
      some "interval(every: amount(num: 2, size: day))" := by decide +kernel
  obtain ⟨s, g', hrun, htext⟩ := Reduction.exists_of_map_result?_eq_some hshape
  exact ⟨rfl, hagree, s, g', (meaning_eq_ok_iff_of_agreeOn hagree).2 hrun, htext⟩

end Tree

end Expression

end Almanac

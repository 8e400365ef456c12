import Mathlib.Data.List.Induction
import Almanac.Proofs.Keyed
import Almanac.Proofs.Reduction.Run
import Almanac.Proofs.Schema.Default
import Almanac.Reduction.Argument

/-!
When a call makes a section: every argument is known, every field passes its check when its turn
comes, and the schema accepts the values of the fields.
-/

namespace Almanac

open Reduction

variable {ctx : Context} {args : List (String × Argument)}

theorem Context.arguments_eq_map (args : List (String × Expression.Value)) :
    ctx.arguments args = args.map ctx.argument := by
  induction args with
  | nil => rfl
  | cons argument rest ih => rw [arguments, ih, List.map_cons]

theorem Context.fst_argument (argument : String × Expression.Value) :
    (ctx.argument argument).1 = argument.1 := by
  rw [Context.argument]

theorem Context.get?_arguments (args : List (String × Expression.Value)) (key : String) :
    Keyed.get? (ctx.arguments args) key =
      (Keyed.get? args key).map fun v => ⟨v, ctx.named? v⟩ := by
  induction args with
  | nil => rfl
  | cons argument rest ih =>
    obtain ⟨k, v⟩ := argument
    rw [arguments, argument, Keyed.get?, Keyed.get?]
    split
    · rfl
    · exact ih

/-- Filing the arguments of a call makes none that was not there before. -/
theorem Context.forall_mem_arguments_ofList {p : Argument → Prop}
    {args : List (String × Expression.Value)} (h : ∀ argument ∈ args, p (ctx.argument argument).2) :
    ∀ entry ∈ ctx.arguments (Keyed.ofList args), p entry.2 := by
  rw [arguments_eq_map]
  exact List.forall_mem_map.2 fun argument hmem => h argument (Keyed.mem_of_mem_ofList hmem)

theorem Argument.exists_of_canReturn_toSection {a : Argument} {s : Section}
    (h : a.toSection.CanReturn s) :
    ∃ reduction, a.named = some reduction ∧ reduction.CanReturn s := by
  obtain ⟨value, named⟩ := a
  cases named with
  | none => exact absurd h not_canReturn_fail
  | some reduction => exact ⟨reduction, rfl, canReturn_of_mapError h⟩

/-- A call that makes a section is an argument that names it. -/
theorem Context.toSection_call {name : String} {args : List (String × Expression.Value)}
    {s : Section}
    (h : ctx.callSection name args = pure s) :
    Argument.toSection ⟨.call name args, ctx.named? (.call name args)⟩ = pure s := by
  rw [Context.named?]
  exact congrArg (mapError Reason.nested) h

/-- A call that makes a section is taken for the end that the section names. -/
theorem FieldKind.check_bound_call {name : String} {args : List (String × Expression.Value)}
    {s : Section} {forever : Bool} {b : Occurrence.Bound} (h : ctx.callSection name args = pure s)
    (hbound : s.toBound ctx forever = pure b) :
    (bound forever).check ctx ⟨.call name args, ctx.named? (.call name args)⟩ =
      pure (.bound b) := by
  rw [check, Context.toSection_call h, pure_bind, hbound, map_pure]

/-- A field that has a value has made it of the argument of its name. -/
theorem Field.exists_of_canReturn_check {field : Field} {v : FieldValue}
    (h : (field.check ctx args).CanReturn (some v)) :
    ∃ a, Keyed.get? args field.name = some a ∧ (field.kind.check ctx a).CanReturn v := by
  unfold Field.check at h
  split at h
  case h_1 a ha =>
    obtain ⟨_, hcheck, hv⟩ := exists_of_canReturn_map h
    cases hv
    exact ⟨a, ha, hcheck⟩
  case h_2 =>
    split at h
    · exact absurd h not_canReturn_fail
    · cases canReturn_pure_iff.1 h

section FieldValues

variable {outcomes : List FieldOutcome} {name : String}

theorem fieldProblems_eq_nil_iff :
    fieldProblems outcomes = [] ↔ ∀ outcome ∈ outcomes, ∃ v, outcome.2 = .ok v := by
  unfold fieldProblems
  rw [List.filterMap_eq_nil_iff]
  refine forall₂_congr fun outcome _ => ?_
  obtain ⟨name, reason | v⟩ := outcome <;> simp

/-- Every value of a field is what came of its check. -/
theorem mem_of_get?_fieldValues {v : FieldValue}
    (h : (fieldValues outcomes).get? name = some v) : (name, .ok (some v)) ∈ outcomes := by
  revert h
  unfold fieldValues
  refine List.foldlRecOn (motive := fun fields : Fields => fields.get? name = some v → _)
    outcomes _ ?_ ?_
  · intro h
    cases h
  · intro fields ih outcome houtcome h
    split at h
    case h_1 key value =>
      unfold Fields.get? Fields.insert at h
      rw [Keyed.get?_insert] at h
      -- A value under this name is of this outcome, and one under another of an earlier outcome.
      split at h
      case isTrue hname =>
        cases h
        exact hname ▸ houtcome
      case isFalse => exact ih h
    case h_2 => exact ih h

/-- Where no two outcomes have one name, a field has the value that came of its check. -/
theorem get?_fieldValues (hdistinct : (outcomes.map Prod.fst).Nodup) {v : Option FieldValue}
    (hmem : (name, .ok v) ∈ outcomes) : (fieldValues outcomes).get? name = v := by
  induction outcomes using List.reverseRecOn with
  | nil => cases hmem
  | append_singleton rest last ih =>
    obtain ⟨hrest, hlast⟩ := Keyed.nodup_keys_concat.1 hdistinct
    unfold fieldValues at ih ⊢
    rw [List.foldl_append, List.foldl_cons, List.foldl_nil]
    rcases List.mem_append.1 hmem with hmem | hmem
    · have hne : name ≠ last.1 := fun heq => hlast (List.mem_map.2 ⟨_, hmem, heq⟩)
      rw [← ih hrest hmem]
      split
      · exact (Keyed.get?_insert ..).trans (if_neg hne)
      · rfl
    · cases List.mem_singleton.1 hmem
      cases v with
      | some value => exact (Keyed.get?_insert ..).trans (if_pos rfl)
      | none =>
        refine Option.eq_none_iff_forall_ne_some.2 fun value hvalue => hlast ?_
        exact List.mem_map.2 ⟨_, mem_of_get?_fieldValues hvalue, rfl⟩

end FieldValues

/-- The fields come to these outcomes in turn, from a state of the generator on. -/
inductive Turns (ctx : Context) (args : List (String × Argument)) :
    List Field → Generator → List FieldOutcome → Generator → Prop
  | done (g : Generator) : Turns ctx args [] g [] g
  | turn {field : Field} {rest : List Field} {outcomes : List FieldOutcome}
    {outcome : Except Reason (Option FieldValue)} {g between g' : Generator}
    (hcheck : (field.check ctx args).run g = .ok (outcome, between))
    (hrest : Turns ctx args rest between outcomes g') :
    Turns ctx args (field :: rest) g ((field.name, outcome) :: outcomes) g'

variable {fields : List Field} {outcomes : List FieldOutcome} {g g' : Generator}

theorem Turns.map_fst (h : Turns ctx args fields g outcomes g') :
    outcomes.map Prod.fst = fields.map Field.name := by
  induction h with
  | done => rfl
  | turn _ _ ih => rw [List.map_cons, List.map_cons, ih]

theorem Turns.exists_of_mem (h : Turns ctx args fields g outcomes g') {name : String}
    {v : Option FieldValue} (hmem : (name, .ok v) ∈ outcomes) :
    ∃ field ∈ fields, field.name = name ∧ (field.check ctx args).CanReturn v := by
  induction h with
  | done => cases hmem
  | @turn field _ _ _ _ _ _ hcheck _ ih =>
    rcases List.mem_cons.1 hmem with heq | hmem
    · cases heq
      exact ⟨field, .head _, rfl, canReturn_of_run hcheck⟩
    · obtain ⟨other, hother, hname⟩ := ih hmem
      exact ⟨other, .tail _ hother, hname⟩

/-- Checking fields gives an outcome for each of them in turn. It does not fail, but it breaks off
with the first check that does. -/
theorem run_checkFields_eq_ok_iff {ε : Type} {result : Except ε (List FieldOutcome)} :
    (checkFields ctx args fields).run g = .ok (result, g') ↔
      ∃ outcomes, result = .ok outcomes ∧ Turns ctx args fields g outcomes g' := by
  induction fields generalizing g g' result with
  | nil =>
    constructor
    · rintro ⟨⟩
      exact ⟨[], rfl, .done _⟩
    · rintro ⟨_, rfl, ⟨⟩⟩
      rfl
  | cons field rest ih =>
    rw [checkFields, run_attempt_bind, run_continueWith_eq_ok_iff]
    constructor
    · rintro ⟨outcome, between, hcheck, h⟩
      rw [run_bind] at h
      rcases hrest : (checkFields ctx args rest).run between with reason | ⟨others, after⟩
      · rw [hrest] at h
        cases h
      · obtain ⟨outcomes, rfl, hturns⟩ := ih.1 hrest
        rw [hrest] at h
        cases h
        exact ⟨_, rfl, .turn hcheck hturns⟩
    · rintro ⟨_, rfl, _ | ⟨hcheck, hrest⟩⟩
      refine ⟨_, _, hcheck, ?_⟩
      rw [run_bind, ih.2 ⟨_, rfl, hrest⟩]
      rfl

theorem checkFields_eq_pure {ε : Type} {value : Field → Option FieldValue}
    (h : ∀ field ∈ fields, field.check ctx args = pure (value field)) :
    checkFields ctx args fields =
      (pure (fields.map fun field => (field.name, .ok (value field))) : Reduction ε _) := by
  induction fields with
  | nil => rfl
  | cons field rest ih =>
    rw [List.forall_mem_cons] at h
    rw [checkFields, h.1, ih h.2]
    rfl

namespace Schema

variable {schema : Schema} {name : String} {s : Section}

theorem unexpected_eq_nil_iff :
    schema.unexpected args = [] ↔ ∀ entry ∈ args, (schema.field? entry.1).isSome = true := by
  unfold unexpected Keyed.keys
  simp only [List.map_eq_nil_iff, List.filter_eq_nil_iff, List.forall_mem_map,
    Bool.not_eq_true, Option.isNone_eq_false_iff]

theorem conclude_eq_ok_iff :
    schema.conclude name args outcomes = .ok s ↔
      (∀ entry ∈ args, (schema.field? entry.1).isSome = true) ∧
      (∀ outcome ∈ outcomes, ∃ v, outcome.2 = .ok v) ∧
      schema.build (fieldValues outcomes) = .ok s := by
  rw [← unexpected_eq_nil_iff, ← fieldProblems_eq_nil_iff, ← and_assoc, ← List.append_eq_nil_iff,
    conclude]
  split
  case h_1 hnil =>
    rw [and_iff_right hnil]
    cases schema.build (fieldValues outcomes) <;> simp [Except.mapError]
  case h_2 hsome => exact iff_of_false nofun fun h => hsome h.1

/-- What a call comes to that does not break off. -/
theorem run_apply_eq_iff {outcome : Except SpecError Section} :
    (schema.apply ctx name args).run g = .ok (outcome, g') ↔
      ∃ outcomes, Turns ctx args schema.fields g outcomes g' ∧
        schema.conclude name args outcomes = outcome := by
  rw [apply, run_bind]
  cases hrun : (checkFields ctx args schema.fields : Reduction SpecError _).run g with
  | error reason =>
    refine iff_of_false nofun fun ⟨outcomes, hturns, _⟩ => ?_
    cases hrun.symm.trans (run_checkFields_eq_ok_iff.2 ⟨_, rfl, hturns⟩)
  | ok result =>
    obtain ⟨_, after⟩ := result
    obtain ⟨outcomes, rfl, hturns⟩ := run_checkFields_eq_ok_iff.1 hrun
    constructor
    · rintro ⟨⟩
      exact ⟨outcomes, hturns, rfl⟩
    · rintro ⟨others, hothers, rfl⟩
      cases hrun.symm.trans (run_checkFields_eq_ok_iff.2 ⟨_, rfl, hothers⟩)
      rfl

/-- What it takes for the arguments of a call to make a section. -/
theorem run_apply_eq_ok_iff :
    (schema.apply ctx name args).run g = .ok (.ok s, g') ↔
      (∀ entry ∈ args, (schema.field? entry.1).isSome = true) ∧
      ∃ outcomes, Turns ctx args schema.fields g outcomes g' ∧
        (∀ outcome ∈ outcomes, ∃ v, outcome.2 = .ok v) ∧
        schema.build (fieldValues outcomes) = .ok s := by
  simp only [run_apply_eq_iff, conclude_eq_ok_iff]
  exact ⟨fun ⟨outcomes, hturns, hknown, hbuilt⟩ => ⟨hknown, outcomes, hturns, hbuilt⟩,
    fun ⟨hknown, outcomes, hturns, hbuilt⟩ => ⟨outcomes, hturns, hknown, hbuilt⟩⟩

/-- Checks that draw nothing make a call that draws nothing. -/
theorem apply_eq_pure {value : Field → Option FieldValue}
    (hknown : ∀ entry ∈ args, (schema.field? entry.1).isSome = true)
    (hchecks : ∀ field ∈ schema.fields, field.check ctx args = pure (value field))
    (hbuild : schema.build (fieldValues (schema.fields.map fun field =>
      (field.name, .ok (value field)))) = .ok s) :
    schema.apply ctx name args = pure s := by
  rw [apply, checkFields_eq_pure hchecks, pure_bind,
    conclude_eq_ok_iff.2 ⟨hknown, List.forall_mem_map.2 fun field _ => ⟨_, rfl⟩, hbuild⟩]
  rfl

end Schema

end Almanac

import Almanac.Proofs.Reduction.Entry
import Almanac.Proofs.Reduction.Items
import Almanac.Proofs.Reduction.BreakOff

/-!
The problems that a call fails with: all that is wrong with its arguments, one entry for each, and
nothing else. What the schema makes of the fields counts only if nothing is wrong with them. Where
the check of an argument breaks off, though, no problem is told at all.
-/

namespace Almanac

open Calendar Expression Reduction

variable {ctx : Context} {schema : Schema} {g g' : Generator}

/-- What is wrong with the arguments of a call. -/
inductive Schema.IsProblem (schema : Schema) (ctx : Context) (args : List (String × Value))
    (g : Generator) : ArgumentProblem → Prop where
  | unexpected {key : String} (hkey : key ∈ args.map Prod.fst)
      (hunknown : key ∉ schema.fields.map Field.name) :
      IsProblem schema ctx args g (key, .unexpectedArgument)
  | missing {field : Field} (hfield : field ∈ schema.fields) (hrequired : field.required = true)
      (habsent : field.name ∉ args.map Prod.fst) :
      IsProblem schema ctx args g (field.name, .missing)
  | rejected {field : Field} {value : Value} {reason : Reason} {turn after : Generator}
      (hturn : field.HasTurn ctx (ctx.arguments args) schema.fields g turn)
      (hvalue : (field.name, value) ∈ args)
      (hcheck : (field.kind.check ctx ⟨value, ctx.named? value⟩).run turn =
        .ok (.error reason, after)) : IsProblem schema ctx args g (field.name, reason)

/-- An argument comes upon days of the week that no date is left for when its turn comes. -/
def Schema.BreaksOff (schema : Schema) (ctx : Context) (args : List (String × Value))
    (g : Generator) : Prop :=
  ∃ (field : Field) (turn : Generator) (value : Value),
    field.HasTurn ctx (ctx.arguments args) schema.fields g turn ∧
    (field.name, value) ∈ args ∧ field.kind.BreaksOff ctx value turn

/-- All problems and nothing else, one for each argument at most: those with unexpected arguments in
ascending order of their names, and then those with fields in the order of the fields. -/
structure Schema.IsReport (schema : Schema) (ctx : Context) (args : List (String × Value))
    (g : Generator) (problems : List ArgumentProblem) : Prop where
  mem_iff : ∀ problem, problem ∈ problems ↔ schema.IsProblem ctx args g problem
  nodup : (problems.map Prod.fst).Nodup
  ordered : ∃ unknown known, problems = unknown ++ known ∧
    (unknown.map Prod.fst).Pairwise (· < ·) ∧
    (∀ problem ∈ unknown, problem.1 ∉ schema.fields.map Field.name) ∧
    (known.map Prod.fst).Sublist (schema.fields.map Field.name)

section Turns

variable {args : List (String × Argument)} {fields : List Field} {outcomes : List FieldOutcome}

theorem Field.HasTurn.mem {field : Field} {turn : Generator}
    (h : field.HasTurn ctx args fields g turn) : field ∈ fields := by
  induction h with
  | first => exact .head _
  | later _ _ ih => exact .tail _ ih

/-- The outcomes are those of the checks of the fields at their turns. -/
theorem Turns.mem_iff (h : Turns ctx args fields g outcomes g') {outcome : FieldOutcome} :
    outcome ∈ outcomes ↔ ∃ (field : Field) (turn after : Generator),
      field.HasTurn ctx args fields g turn ∧
        (field.check ctx args).run turn = .ok (outcome.2, after) ∧ field.name = outcome.1 := by
  induction h with
  | done =>
    refine iff_of_false List.not_mem_nil ?_
    rintro ⟨_, _, _, ⟨⟩, -⟩
  | @turn field rest others result g between g' hcheck _ ih =>
    rw [List.mem_cons, ih]
    constructor
    · rintro (rfl | ⟨other, turn, after, hturn, hother⟩)
      · exact ⟨field, g, between, .first rest g, hcheck, rfl⟩
      · exact ⟨other, turn, after, .later hcheck hturn, hother⟩
    · rintro ⟨other, turn, after, hturn, hother, hname⟩
      cases hturn with
      | first =>
        rw [hcheck] at hother
        cases hother
        exact .inl (Prod.ext hname.symm rfl)
      | later hfirst hturn =>
        cases hcheck.symm.trans hfirst
        exact .inr ⟨other, turn, after, hturn, hother, hname⟩

/-- Every field has its turn, and something comes of it. -/
theorem Turns.exists_hasTurn (h : Turns ctx args fields g outcomes g') {field : Field}
    (hfield : field ∈ fields) : ∃ turn outcome after, field.HasTurn ctx args fields g turn ∧
      (field.check ctx args).run turn = .ok (outcome, after) ∧
      (field.name, outcome) ∈ outcomes := by
  induction h with
  | done => cases hfield
  | turn hcheck _ ih =>
    rcases List.mem_cons.1 hfield with rfl | hfield
    · exact ⟨_, _, _, .first _ _, hcheck, .head _⟩
    · obtain ⟨turn, outcome, after, hturn, hrun, hmem⟩ := ih hfield
      exact ⟨turn, outcome, after, .later hcheck hturn, hrun, .tail _ hmem⟩

end Turns

theorem Context.keys_arguments (args : List (String × Value)) :
    Keyed.keys (ctx.arguments args) = args.map Prod.fst := by
  rw [Keyed.keys, arguments_eq_map, List.map_map]
  exact List.map_congr_left fun argument _ => fst_argument argument

theorem Schema.field?_isNone_iff {key : String} :
    (schema.field? key).isNone = true ↔ key ∉ schema.fields.map Field.name := by
  rw [field?, Option.isNone_iff_eq_none, List.find?_eq_none]
  simp

/-- A field has a problem if it has to be filled and is not, or if it is filled with a value that
fails. -/
theorem Field.run_check_arguments_eq_error_iff {field : Field} {args : List (String × Value)}
    {reason : Reason} (hkeys : (args.map Prod.fst).Nodup) :
    (∃ after, (field.check ctx (ctx.arguments args)).run g = .ok (.error reason, after)) ↔
      (field.required = true ∧ field.name ∉ args.map Prod.fst ∧ reason = .missing) ∨
      ∃ value after, (field.name, value) ∈ args ∧
        (field.kind.check ctx ⟨value, ctx.named? value⟩).run g = .ok (.error reason, after) := by
  rw [check_arguments]
  cases hget : Keyed.get? args field.name with
  | none =>
    have habsent : field.name ∉ args.map Prod.fst := Keyed.get?_eq_none_iff.1 hget
    have hnone (value : Value) : (field.name, value) ∉ args :=
      fun hmem => habsent (List.mem_map_of_mem hmem)
    cases field.required <;> simp [habsent, hnone, eq_comm]
  | some value =>
    have hmem : (field.name, value) ∈ args := Keyed.mem_of_get?_eq_some hget
    have hgiven : field.name ∈ args.map Prod.fst := List.mem_map_of_mem hmem
    have hsame : ∀ other, (field.name, other) ∈ args → other = value := fun other hother =>
      Option.some.inj (((Keyed.get?_eq_some_iff hkeys).2 hother).symm.trans hget)
    simp only [run_map_eq_error_iff]
    constructor
    · rintro ⟨after, hcheck⟩
      exact .inr ⟨value, after, hmem, hcheck⟩
    · rintro (⟨-, habsent, -⟩ | ⟨other, after, hother, hcheck⟩)
      · exact absurd hgiven habsent
      · exact ⟨after, hsame other hother ▸ hcheck⟩

namespace Schema

variable {args : List (String × Value)} {problem : ArgumentProblem} {outcomes : List FieldOutcome}

theorem mem_unexpected_iff :
    problem ∈ schema.unexpected (ctx.arguments args) ↔
      ∃ key ∈ args.map Prod.fst, key ∉ schema.fields.map Field.name ∧
        (key, .unexpectedArgument) = problem := by
  unfold unexpected
  simp only [List.mem_map, List.mem_filter, Context.keys_arguments, field?_isNone_iff, and_assoc]

theorem mem_fieldProblems_iff {key : String} {reason : Reason} :
    (key, reason) ∈ fieldProblems outcomes ↔ (key, .error reason) ∈ outcomes := by
  unfold fieldProblems
  rw [List.mem_filterMap]
  constructor
  · rintro ⟨⟨name, found | v⟩, hmem, hproblem⟩ <;> cases hproblem
    exact hmem
  · intro hmem
    exact ⟨_, hmem, rfl⟩

theorem mem_problems_iff (hkeys : (args.map Prod.fst).Nodup)
    (hturns : Turns ctx (ctx.arguments args) schema.fields g outcomes g') :
    problem ∈ schema.unexpected (ctx.arguments args) ++ fieldProblems outcomes ↔
      schema.IsProblem ctx args g problem := by
  obtain ⟨key, reason⟩ := problem
  rw [List.mem_append, mem_unexpected_iff, mem_fieldProblems_iff, hturns.mem_iff]
  constructor
  · rintro (⟨key, hkey, hunknown, heq⟩ | ⟨field, turn, after, hturn, hcheck, rfl⟩)
    · exact heq ▸ .unexpected hkey hunknown
    · rcases (Field.run_check_arguments_eq_error_iff hkeys).1 ⟨after, hcheck⟩ with
        ⟨hrequired, habsent, rfl⟩ | ⟨value, after, hvalue, hcheck⟩
      · exact .missing hturn.mem hrequired habsent
      · exact .rejected hturn hvalue hcheck
  · intro h
    cases h with
    | unexpected hkey hunknown => exact .inl ⟨_, hkey, hunknown, rfl⟩
    | missing hfield hrequired habsent =>
      obtain ⟨turn, -, -, hturn, -⟩ := hturns.exists_hasTurn hfield
      obtain ⟨after, hcheck⟩ := (Field.run_check_arguments_eq_error_iff hkeys (g := turn)).2
        (.inl ⟨hrequired, habsent, rfl⟩)
      exact .inr ⟨_, turn, after, hturn, hcheck, rfl⟩
    | rejected hturn hvalue hcheck =>
      obtain ⟨after, hcheck⟩ :=
        (Field.run_check_arguments_eq_error_iff hkeys).2 (.inr ⟨_, _, hvalue, hcheck⟩)
      exact .inr ⟨_, _, after, hturn, hcheck, rfl⟩

theorem problems_eq_nil_iff (hkeys : (args.map Prod.fst).Nodup)
    (hturns : Turns ctx (ctx.arguments args) schema.fields g outcomes g') :
    schema.unexpected (ctx.arguments args) ++ fieldProblems outcomes = [] ↔
      ¬ ∃ problem, schema.IsProblem ctx args g problem := by
  simp only [List.eq_nil_iff_forall_not_mem, mem_problems_iff hkeys hturns, not_exists]

/-- The unexpected arguments are told in the order in which the arguments stand. -/
theorem ascending_unexpected (schema : Schema) (ctx : Context) (hsorted : Keyed.IsSorted args) :
    ((schema.unexpected (ctx.arguments args)).map Prod.fst).Pairwise (· < ·) := by
  have hkeys : (args.map Prod.fst).Pairwise (· < ·) := List.pairwise_map.2 hsorted
  unfold unexpected
  rw [List.map_map, Context.keys_arguments]
  simpa [Function.comp_def] using hkeys.filter _

theorem fieldProblems_sublist (outcomes : List FieldOutcome) :
    ((fieldProblems outcomes).map Prod.fst).Sublist (outcomes.map Prod.fst) := by
  refine map_filterMap_sublist (fun outcome problem hproblem => ?_) outcomes
  split at hproblem <;> cases hproblem
  rfl

theorem isReport_problems (hdistinct : schema.IsDistinct) (hsorted : Keyed.IsSorted args)
    (hturns : Turns ctx (ctx.arguments args) schema.fields g outcomes g') :
    schema.IsReport ctx args g
      (schema.unexpected (ctx.arguments args) ++ fieldProblems outcomes) := by
  have hascending := ascending_unexpected schema ctx hsorted
  have hsublist := fieldProblems_sublist outcomes
  rw [hturns.map_fst] at hsublist
  have hunknown : ∀ problem ∈ schema.unexpected (ctx.arguments args),
      problem.1 ∉ schema.fields.map Field.name := by
    intro problem hmem
    obtain ⟨key, -, hunknown, rfl⟩ := mem_unexpected_iff.1 hmem
    exact hunknown
  refine ⟨fun _ => mem_problems_iff hsorted.nodup_keys hturns, ?_,
    _, _, rfl, hascending, hunknown, hsublist⟩
  rw [List.map_append, List.nodup_append]
  refine ⟨hascending.imp ne_of_lt, hdistinct.sublist hsublist, ?_⟩
  rintro key hkey _ hfield rfl
  obtain ⟨problem, hmem, rfl⟩ := List.mem_map.1 hkey
  exact hunknown problem hmem (hsublist.subset hfield)

/-- A problem with a field that has an argument is what the check of the argument fails with. -/
theorem IsProblem.exists_run_eq_error (hdistinct : schema.IsDistinct)
    (hkeys : (args.map Prod.fst).Nodup) {field : Field} (hfield : field ∈ schema.fields)
    {value : Value} (hvalue : (field.name, value) ∈ args) (h : schema.IsProblem ctx args g problem)
    (hname : problem.1 = field.name) :
    ∃ turn after, (field.kind.check ctx ⟨value, ctx.named? value⟩).run turn =
      .ok (.error problem.2, after) := by
  cases h with
  | unexpected hkey hunknown =>
    obtain rfl : _ = field.name := hname
    exact absurd (List.mem_map_of_mem hfield) hunknown
  | missing hother hrequired habsent =>
    refine absurd ?_ habsent
    exact List.mem_map.2 ⟨_, hvalue, hname.symm⟩
  | @rejected other otherValue _ _ _ hturn hother hcheck =>
    obtain rfl := List.inj_on_of_nodup_map hdistinct hturn.mem hfield hname
    obtain rfl := Option.some.inj (((Keyed.get?_eq_some_iff hkeys).2 hother).symm.trans
      ((Keyed.get?_eq_some_iff hkeys).2 hvalue))
    exact ⟨_, _, hcheck⟩

theorem run_apply_breaksOff_iff_breaksOff (hkeys : (args.map Prod.fst).Nodup) {name : String} :
    (schema.apply ctx name (ctx.arguments args)).run g = .error .calendarEnd ↔
      schema.BreaksOff ctx args g := by
  simp only [run_apply_breaksOff_iff, FieldKind.run_check_breaksOff_iff,
    Keyed.get?_eq_some_iff hkeys, BreaksOff]

/-- Where something is wrong with the arguments a call fails with that, whatever they have passed
as. -/
theorem conclude_of_mem {name : String} {args : List (String × Argument)}
    (h : problem ∈ schema.unexpected args ++ fieldProblems outcomes) :
    schema.conclude name args outcomes = .error (.badArguments name
      (schema.unexpected args ++ fieldProblems outcomes)) := by
  unfold conclude
  split
  case h_1 hnone => exact absurd hnone (List.ne_nil_of_mem h)
  case h_2 => rfl

end Schema

end Almanac

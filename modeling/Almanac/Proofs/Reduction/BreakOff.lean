import Almanac.Proofs.Reduction.Entry
import Almanac.Proofs.Reduction.NextWeekday
import Almanac.Proofs.Reduction.Simple
import Almanac.Reduction.Reduce

/-!
Reductions that end and reductions that break off. Only the search for the next day of the week
breaks off, and with it every call that has it among its arguments. It does so in the last days of
the calendar only: before these every expression comes down to a section or fails with an error.
-/

namespace Almanac

open Calendar Expression Reduction

namespace Reduction

variable {ε δ α β : Type} {x : Reduction ε α}

/-- From every state of the generator on, there is a result or an error. -/
def IsTotal (x : Reduction ε α) : Prop :=
  ∀ g, ∃ outcome g', x.run g = .ok (outcome, g')

theorem isTotal_ofExcept (outcome : Except ε α) : (ofExcept outcome).IsTotal := fun g =>
  ⟨outcome, g, rfl⟩

theorem isTotal_pure (a : α) : (pure a : Reduction ε α).IsTotal :=
  isTotal_ofExcept (.ok a)

theorem isTotal_fail (e : ε) : (fail e : Reduction ε α).IsTotal :=
  isTotal_ofExcept (.error e)

theorem isTotal_draw (low high : Nat) : (draw low high : Reduction ε Nat).IsTotal := fun g =>
  ⟨_, _, run_draw low high g⟩

theorem IsTotal.continueWith {next : Except ε α → Reduction δ β} (h : x.IsTotal)
    (hnext : ∀ outcome, (next outcome).IsTotal) : (x.continueWith next).IsTotal := by
  intro g
  obtain ⟨outcome, between, hx⟩ := h g
  obtain ⟨result, g', hrun⟩ := hnext outcome between
  exact ⟨result, g', run_continueWith_eq_ok_iff.2 ⟨outcome, between, hx, hrun⟩⟩

theorem IsTotal.bind {next : α → Reduction ε β} (h : x.IsTotal) (hnext : ∀ a, (next a).IsTotal) :
    (x >>= next).IsTotal :=
  h.continueWith fun
    | .ok a => hnext a
    | .error e => isTotal_fail e

theorem IsTotal.map (h : x.IsTotal) (f : α → β) : (f <$> x).IsTotal := by
  rw [map_eq_pure_bind]
  exact h.bind fun _ => isTotal_pure _

theorem IsTotal.mapError (h : x.IsTotal) (f : ε → δ) : (x.mapError f).IsTotal :=
  h.continueWith fun _ => isTotal_ofExcept _

theorem IsTotal.not_breaksOff (h : x.IsTotal) {g : Generator} {reason : Interruption} :
    x.run g ≠ .error reason := by
  intro hrun
  obtain ⟨outcome, g', hend⟩ := h g
  cases hend.symm.trans hrun

theorem isTotal_of_forall_ne (h : ∀ g, x.run g ≠ .error .calendarEnd) : x.IsTotal := by
  intro g
  cases hrun : x.run g with
  | ok result => exact ⟨result.1, result.2, rfl⟩
  | error reason => exact absurd hrun (h g)

theorem run_bind_breaksOff_iff_of_isTotal {next : α → Reduction ε β} {g : Generator}
    {reason : Interruption} (hnext : ∀ a, (next a).IsTotal) :
    (x >>= next).run g = .error reason ↔ x.run g = .error reason := by
  rw [run_bind_breaksOff_iff]
  refine or_iff_left ?_
  rintro ⟨a, after, -, hrun⟩
  exact (hnext a).not_breaksOff hrun

end Reduction

variable {ctx : Context} {g : Generator}

namespace Section

theorem isTotal_simplify (s : Section) (ctx : Context) : (s.simplify ctx).IsTotal := by
  cases s with
  | epoch seconds =>
    simp only [simplify]
    split <;> exact isTotal_ofExcept _
  | range low high =>
    simp only [simplify, Context.drawAmount]
    split_ifs
    · exact ((isTotal_draw _ _).map _).map _
    · exact (isTotal_fail _).map _
  | literal l => exact isTotal_ofExcept _
  | _ => exact isTotal_pure _

/-- Days of the week of which no date is left name no moment, and every other section names one or
does not. -/
theorem run_directBound_breaksOff_iff {forever : Bool} {s : Section} :
    (s.directBound ctx forever).run g = .error .calendarEnd ↔
      ∃ days, s = weekdays days ∧ days.isEmpty = false ∧ ctx.now.date.IsAfterAll days := by
  cases s with
  | weekdays days =>
    simp only [directBound, run_map_breaksOff_iff, run_nextWeekday_breaksOff_iff, weekdays.injEq,
      exists_eq_left']
  | recurrence | epoch | time | yearDay | forever =>
    simp only [directBound]
    split <;> simp
  | _ => simp [directBound]

theorem run_toBound_breaksOff_iff {forever : Bool} {s : Section} :
    (s.toBound ctx forever).run g = .error .calendarEnd ↔
      ∃ days, s = weekdays days ∧ days.isEmpty = false ∧ ctx.now.date.IsAfterAll days := by
  cases s with
  | literal l =>
    simp only [toBound, simplify, mapError_ofExcept]
    cases hexpand : l.expand with
    | error e => exact iff_of_false (fun h => by cases h) (by simp)
    | ok simple =>
      have hreturn : ((literal l).simplify ctx).CanReturn simple :=
        canReturn_ofExcept_iff.2 hexpand
      have hsimple := isSimple_of_simplify hreturn
      refine run_directBound_breaksOff_iff.trans (iff_of_false ?_ (by simp))
      rintro ⟨days, rfl, -⟩
      cases hsimple
  | sunrise | sunset => exact iff_of_false (fun h => by cases h) (by simp)
  | _ => simp only [toBound, pure_bind, run_directBound_breaksOff_iff]

end Section

/-- The fields of that kind take sections. -/
def FieldKind.takesSection : FieldKind → Bool
  | .subsection _ | .bound _ => true
  | _ => false

/-- A field breaks off where its section does or where it takes days of the week for an end. -/
theorem FieldKind.run_check_breaksOff_iff_toSection {kind : FieldKind} {a : Argument} :
    (kind.check ctx a).run g = .error .calendarEnd ↔
      (kind.takesSection = true ∧ a.toSection.run g = .error .calendarEnd) ∨
      ∃ forever days after, kind = .bound forever ∧
        a.toSection.run g = .ok (.ok (.weekdays days), after) ∧
        days.isEmpty = false ∧ ctx.now.date.IsAfterAll days := by
  cases kind with
  | subsection kinds =>
    have hrest (s : Section) := ((s.isTotal_simplify ctx).mapError Reason.nested).bind fun simple =>
      isTotal_ofExcept ((checkKind kinds simple).map FieldValue.subsection)
    rw [check, run_bind_breaksOff_iff_of_isTotal hrest]
    simp [takesSection]
  | bound forever =>
    simp only [check, run_map_breaksOff_iff, run_bind_breaksOff_iff,
      Section.run_toBound_breaksOff_iff, takesSection, true_and, bound.injEq, exists_and_left,
      exists_eq_left']
    refine or_congr_right ⟨?_, ?_⟩
    · rintro ⟨_, after, hrun, days, rfl, hdays⟩
      exact ⟨days, after, hrun, hdays⟩
    · rintro ⟨days, after, hrun, hdays⟩
      exact ⟨_, after, hrun, days, rfl, hdays⟩
  | _ => exact iff_of_false (fun h => by cases h) (by simp [takesSection])

/-- When the fields are checked in turn from a state of the generator on, the turn comes to that
field in the state `turn`. -/
inductive Field.HasTurn (ctx : Context) (args : List (String × Argument)) (field : Field) :
    List Field → Generator → Generator → Prop
  | first (rest : List Field) (g : Generator) : HasTurn ctx args field (field :: rest) g g
  | later {other : Field} {rest : List Field} {outcome : Except Reason (Option FieldValue)}
    {g between turn : Generator} (hcheck : (other.check ctx args).run g = .ok (outcome, between))
    (h : HasTurn ctx args field rest between turn) : HasTurn ctx args field (other :: rest) g turn

/-- The checks break off with the first of them that does. -/
theorem run_checkFields_breaksOff_iff {ε : Type} {args : List (String × Argument)}
    {fields : List Field} {reason : Interruption} :
    (checkFields ctx args fields : Reduction ε _).run g = .error reason ↔
      ∃ (field : Field) (turn : Generator), field.HasTurn ctx args fields g turn ∧
        (field.check ctx args).run turn = .error reason := by
  induction fields generalizing g with
  | nil =>
    refine iff_of_false nofun ?_
    rintro ⟨_, _, ⟨⟩, -⟩
  | cons field rest ih =>
    rw [checkFields, run_attempt_bind, run_continueWith_breaksOff_iff]
    simp only [bind_pure_comp, run_map_breaksOff_iff, ih]
    constructor
    · rintro (hcheck | ⟨outcome, between, hcheck, other, turn, hturn, hother⟩)
      · exact ⟨field, g, .first rest g, hcheck⟩
      · exact ⟨other, turn, .later hcheck hturn, hother⟩
    · rintro ⟨other, turn, hturn, hother⟩
      cases hturn with
      | first => exact .inl hother
      | later hcheck hturn => exact .inr ⟨_, _, hcheck, other, turn, hturn, hother⟩

/-- Only the check of an argument that is there breaks off. -/
theorem Field.run_check_breaksOff_iff {field : Field} {args : List (String × Value)}
    {reason : Interruption} :
    (field.check ctx (ctx.arguments args)).run g = .error reason ↔
      ∃ value, Keyed.get? args field.name = some value ∧
        (field.kind.check ctx ⟨value, ctx.named? value⟩).run g = .error reason := by
  rw [check_arguments]
  cases Keyed.get? args field.name with
  | none => cases field.required <;> simp
  | some value => simp [run_map_breaksOff_iff]

theorem Schema.run_apply_breaksOff_iff {schema : Schema} {name : String}
    {args : List (String × Value)} {reason : Interruption} :
    (schema.apply ctx name (ctx.arguments args)).run g = .error reason ↔
      ∃ (field : Field) (turn : Generator) (value : Value),
        field.HasTurn ctx (ctx.arguments args) schema.fields g turn ∧
        Keyed.get? args field.name = some value ∧
        (field.kind.check ctx ⟨value, ctx.named? value⟩).run turn = .error reason := by
  rw [apply, run_bind_breaksOff_iff_of_isTotal fun _ => isTotal_ofExcept _,
    run_checkFields_breaksOff_iff]
  simp only [Field.run_check_breaksOff_iff, exists_and_left]

/-- A field of that kind comes upon days of the week that no date is left for: they are the end that
it takes, or an argument of the section that it takes has come upon them. -/
inductive FieldKind.BreaksOff (ctx : Context) : FieldKind → Value → Generator → Prop
  | weekdays {forever : Bool} {value : Value} {days : SortedSet Weekday} {g after : Generator}
    (hsection : (Argument.toSection ⟨value, ctx.named? value⟩).run g =
      .ok (.ok (.weekdays days), after))
    (hsome : days.isEmpty = false) (hafter : ctx.now.date.IsAfterAll days) :
    BreaksOff ctx (.bound forever) value g
  | nested {kind : FieldKind} {name : String} {schema : Schema} {args : List (String × Value)}
    {field : Field} {value : Value} {g turn : Generator} (hkind : kind.takesSection = true)
    (hschema : ctx.registry.resolve? name = some schema)
    (hturn : field.HasTurn ctx (ctx.arguments args) schema.fields g turn)
    (hvalue : Keyed.get? args field.name = some value) (h : BreaksOff ctx field.kind value turn) :
    BreaksOff ctx kind (.call name args) g

theorem Argument.run_toSection_call {name : String} {args : List (String × Value)} :
    (Argument.toSection ⟨.call name args, ctx.named? (.call name args)⟩).run g =
        .error .calendarEnd ↔
      ∃ schema, ctx.registry.resolve? name = some schema ∧
        (schema.apply ctx name (ctx.arguments args)).run g = .error .calendarEnd := by
  rw [Context.named?, Argument.toSection, Context.call]
  cases ctx.registry.resolve? name with
  | none => simp
  | some schema => simp only [run_mapError_breaksOff_iff, Option.some.injEq, exists_eq_left']

/-- Induction on the value, as the sections that it takes are made before it. -/
theorem FieldKind.breaksOff_of_run (value : Value) {kind : FieldKind} {g : Generator}
    (h : (kind.check ctx ⟨value, ctx.named? value⟩).run g = .error .calendarEnd) :
    kind.BreaksOff ctx value g := by
  rcases run_check_breaksOff_iff_toSection.1 h with
    ⟨hkind, hsection⟩ | ⟨forever, days, after, rfl, hsection, hsome, hafter⟩
  · match value with
    | .call name args =>
      obtain ⟨schema, hschema, happly⟩ := Argument.run_toSection_call.1 hsection
      obtain ⟨field, turn, value, hturn, hvalue, hcheck⟩ :=
        Schema.run_apply_breaksOff_iff.1 happly
      have hmem := Keyed.mem_of_get?_eq_some hvalue
      exact .nested hkind hschema hturn hvalue (breaksOff_of_run value hcheck)
    | .given s => cases hsection
    | .text _ | .integer _ | .boolean _ | .list _ => cases hsection
  · exact .weekdays hsection hsome hafter
termination_by sizeOf value
decreasing_by
  have hsize := List.sizeOf_lt_of_mem hmem
  simp only [Prod.mk.sizeOf_spec, Value.call.sizeOf_spec] at hsize ⊢
  omega

theorem FieldKind.run_check_breaksOff_iff {kind : FieldKind} {value : Value} :
    (kind.check ctx ⟨value, ctx.named? value⟩).run g = .error .calendarEnd ↔
      kind.BreaksOff ctx value g := by
  refine ⟨breaksOff_of_run value, fun h => ?_⟩
  induction h with
  | weekdays hsection hsome hafter =>
    exact run_check_breaksOff_iff_toSection.2 (.inr ⟨_, _, _, rfl, hsection, hsome, hafter⟩)
  | nested hkind hschema hturn hvalue _ ih =>
    refine run_check_breaksOff_iff_toSection.2
      (.inl ⟨hkind, Argument.run_toSection_call.2 ⟨_, hschema, ?_⟩⟩)
    exact Schema.run_apply_breaksOff_iff.2 ⟨_, _, _, hturn, hvalue, ih⟩

/-- The clock shows none of the last days of the calendar, so that the days of a week are left. -/
def Context.HasWeekLeft (ctx : Context) : Prop :=
  ctx.now.date.day + 6 ≤ lastDay

theorem FieldKind.BreaksOff.not_hasWeekLeft {kind : FieldKind} {value : Value}
    (h : kind.BreaksOff ctx value g) : ¬ ctx.HasWeekLeft := by
  induction h with
  | weekdays _ hsome hafter => exact fun hweek => Date.not_isAfterAll hsome hweek hafter
  | nested _ _ _ _ _ ih => exact ih

theorem Context.isTotal_callSection (h : ctx.HasWeekLeft) (name : String)
    (args : List (String × Value)) : (ctx.callSection name args).IsTotal := by
  refine isTotal_of_forall_ne fun g hrun => ?_
  unfold callSection call at hrun
  cases hschema : ctx.registry.resolve? name with
  | none => simp [hschema] at hrun
  | some schema =>
    simp only [hschema] at hrun
    obtain ⟨_, _, value, -, -, hcheck⟩ := Schema.run_apply_breaksOff_iff.1 hrun
    exact (FieldKind.breaksOff_of_run value hcheck).not_hasWeekLeft h

theorem Expression.Tree.isTotal_reduce (h : ctx.HasWeekLeft) (tree : Tree) :
    (tree.reduce ctx).IsTotal := by
  induction tree with
  | call name args span =>
    exact (Context.isTotal_callSection h name args).bind fun s => s.isTotal_simplify ctx
  | join joiner left right ihleft ihright =>
    exact (ihleft.bind fun s => s.isTotal_simplify ctx).bind fun _ =>
      (ihright.bind fun s => s.isTotal_simplify ctx).bind fun _ =>
        (isTotal_ofExcept _).bind fun s => s.isTotal_simplify ctx

/-- Every text has a meaning or an error, unless the clock shows one of the last days of the
calendar. -/
theorem Section.isTotal_ofText (h : ctx.HasWeekLeft) (complete : Bool) (text : String) :
    (Section.ofText ctx complete text).IsTotal :=
  (isTotal_ofExcept _).bind fun tree => (tree.isTotal_reduce h).bind fun _ => isTotal_ofExcept _

end Almanac

import Mathlib.Tactic.FinCases
import Almanac.Proofs.Reduction.Accepted

/-!
Days of the week as a start or an end. They stand for midnight of the first date from today on that
falls on any of them.
-/

namespace Almanac

open Calendar Expression Occurrence Reduction

variable {ctx : Context} {days : List Weekday} {value : Value} {key : String} {b : Bound}
  {entry : String × Schema} {args : List (String × Value)}

theorem check_weekdayNames (ctx : Context)
    (hitems : itemsOf value = .ok (days.map Weekday.name)) :
    (Field.must "name" (.choices Weekday.names)).check ctx (ctx.arguments [("name", value)]) =
      pure (some (.texts (days.map Weekday.name))) := by
  rw [Field.check_arguments]
  change some <$> (FieldKind.choices Weekday.names).check ctx _ = _
  rw [FieldKind.check_choices hitems, checkList_weekdayNames]
  rfl

/-- The days of the week that are written, in any order and however often, are those of the
section. -/
theorem callSection_weekdays (hregistry : ctx.registry = .defaults) (hsome : days ≠ [])
    (hitems : itemsOf value = .ok (days.map Weekday.name)) :
    ctx.callSection "day_name" [("name", value)] = pure (.weekdays (.ofList days)) := by
  have hresolve : ctx.registry.resolve? "day_name" = some .weekdays := by
    rw [hregistry]
    rfl
  have hchecks : ∀ field ∈ Schema.weekdays.fields,
      field.check ctx (ctx.arguments [("name", value)]) =
        pure (some (.texts (days.map Weekday.name))) :=
    List.forall_mem_singleton.2 (check_weekdayNames ctx hitems)
  have hset := SortedSet.isEmpty_ofList hsome
  unfold Context.callSection Context.call
  rw [hresolve]
  refine Schema.apply_eq_pure ?_ hchecks ?_
  · rw [Context.arguments_eq_map, List.map_singleton, List.forall_mem_singleton,
      Context.fst_argument]
    rfl
  · rw [← Schema.weekdaysOf_names] at hset ⊢
    exact Schema.build_weekdays_names hset rfl

theorem toBound_weekdays {d : Date} (hnext : nextWeekday ctx.now.date (.ofList days) = pure d)
    (forever : Bool) :
    (Section.weekdays (.ofList days)).toBound ctx forever =
      pure (.moment (Instant.on d .midnight)) := by
  change _ <$> nextWeekday ctx.now.date (.ofList days) = _
  rw [hnext, map_pure]

/-- The calls that have a start and may have an end. -/
def Schema.stretches : List (String × Schema) :=
  [("repeat", recurrence), ("between", between)]

/-- What a section has for its start or its end, by the name of the argument. -/
def Section.boundNamed? (s : Section) (key : String) : Option Bound :=
  match s, key with
  | recurrence r, "start" => some (.moment r.start)
  | recurrence r, "end" => r.stop
  | between start _, "start" => some (.moment start)
  | between _ stop, "end" => stop
  | _, _ => none

theorem Section.exists_simplify_of_boundNamed? {s : Section} (h : s.boundNamed? key = some b) :
    ∃ simple, s.simplify ctx = pure simple ∧ simple.boundNamed? key = some b := by
  unfold boundNamed? at h
  split at h
  · exact ⟨_, rfl, h⟩
  · exact ⟨_, rfl, h⟩
  · exact ⟨_, rfl, h⟩
  · subst h
    exact ⟨_, rfl, rfl⟩
  · cases h

namespace Schema

theorem resolve?_stretches (hregistry : ctx.registry = .defaults) (h : entry ∈ stretches) :
    ctx.registry.resolve? entry.1 = some entry.2 := by
  rw [hregistry]
  fin_cases h <;> rfl

theorem isDistinct_stretches (h : entry ∈ stretches) : entry.2.IsDistinct := by
  fin_cases h <;> decide

theorem exists_bound_field (h : entry ∈ stretches) (hkey : key ∈ ["start", "end"]) :
    ∃ forever required, ⟨key, .bound forever, required⟩ ∈ entry.2.fields := by
  fin_cases h <;> fin_cases hkey
  · exact ⟨_, _, .head _⟩
  · exact ⟨_, _, .tail _ (.head _)⟩
  · exact ⟨_, _, .head _⟩
  · exact ⟨_, _, .tail _ (.head _)⟩

theorem start_field_mem (h : entry ∈ stretches) :
    .must "start" (.bound false) ∈ entry.2.fields := by
  fin_cases h <;> exact .head _

/-- The section that is built has the ends that its arguments passed as. -/
theorem exists_build_of_start {f : Fields} {start : Instant} (h : entry ∈ stretches)
    (hstart : f.get? "start" = some (.bound (.moment start))) :
    ∃ s, entry.2.build f = .ok s ∧
      s.boundNamed? "start" = some (.moment start) ∧
      s.boundNamed? "end" = (f.get? "end").bind FieldValue.bound? := by
  fin_cases h
  · exact ⟨_, build_recurrence hstart, rfl, rfl⟩
  · exact ⟨_, build_between hstart, rfl, rfl⟩

theorem exists_build_of_bound {f : Fields} {start : Instant} (h : entry ∈ stretches)
    (hkey : key ∈ ["start", "end"]) (hstart : f.get? "start" = some (.bound (.moment start)))
    (hbound : f.get? key = some (.bound b)) :
    ∃ s, entry.2.build f = .ok s ∧ s.boundNamed? key = some b := by
  obtain ⟨s, hbuild, hfirst, hlast⟩ := exists_build_of_start h hstart
  refine ⟨s, hbuild, ?_⟩
  fin_cases hkey
  · cases hbound.symm.trans hstart
    exact hfirst
  · exact hlast.trans (congrArg (Option.bind · FieldValue.bound?) hbound)

end Schema

/-- Unless something is wrong with another argument, an argument that comes down to an end becomes
that end of the section. -/
theorem exists_callSection_of_bound (hregistry : ctx.registry = .defaults)
    (hweek : ctx.HasWeekLeft) (hentry : entry ∈ Schema.stretches) (hkey : key ∈ ["start", "end"])
    (hnodup : (args.map Prod.fst).Nodup) (hargument : (key, value) ∈ args)
    (hbound : ∀ forever,
      (FieldKind.bound forever).check ctx ⟨value, ctx.named? value⟩ = pure (.bound b))
    {g : Generator}
    (hothers : ¬ ∃ problem, entry.2.IsProblem ctx args g problem ∧ problem.1 ≠ key) :
    ∃ s g', (ctx.callSection entry.1 args).run g = .ok (.ok s, g') ∧
      s.boundNamed? key = some b := by
  have hdistinct := Schema.isDistinct_stretches hentry
  obtain ⟨forever, required, hfield⟩ := Schema.exists_bound_field hentry hkey
  have hnone : ¬ ∃ problem, entry.2.IsProblem ctx args g problem := by
    rintro ⟨problem, hproblem⟩
    refine hothers ⟨problem, hproblem, fun hname => ?_⟩
    obtain ⟨turn, after, hrun⟩ :=
      hproblem.exists_run_eq_error hdistinct hnodup hfield hargument hname
    rw [hbound forever] at hrun
    cases hrun
  -- With a week left nothing breaks off, and so every field has its turn.
  obtain ⟨outcome, g', hrun⟩ := Context.isTotal_callSection hweek entry.1 args g
  unfold Context.callSection Context.call at hrun ⊢
  rw [Schema.resolve?_stretches hregistry hentry] at hrun ⊢
  obtain ⟨outcomes, hturns, hconclude⟩ := Schema.run_apply_eq_iff.1 hrun
  have hfilled := Schema.filled_of_not_isProblem hdistinct hnodup hturns hnone
  have hnames : (outcomes.map Prod.fst).Nodup := by
    rw [hturns.map_fst]
    exact hdistinct
  obtain ⟨turn, _, after, -, hcheck, hmem⟩ := hturns.exists_hasTurn hfield
  rw [Field.check_arguments, (Keyed.get?_eq_some_iff hnodup).2 hargument] at hcheck
  simp only [hbound forever, map_pure] at hcheck
  cases hcheck
  obtain ⟨_, v, -, hv, htakes⟩ := hfilled.must (Schema.start_field_mem hentry)
  cases htakes with
  | moment =>
    obtain ⟨s, hbuild, hs⟩ := Schema.exists_build_of_bound hentry hkey hv
      (get?_fieldValues hnames hmem)
    rw [Schema.conclude, (Schema.problems_eq_nil_iff hnodup hturns).2 hnone, hbuild] at hconclude
    cases hconclude
    exact ⟨s, g', hrun, hs⟩

/-- Days of the week as the start or the end of a section stand for midnight of the first date from
today on that falls on one of them. It comes within the week. -/
theorem weekdays_bound_next_date (hregistry : ctx.registry = .defaults)
    (hroom : ctx.now.date.day + 7 ≤ lastDay) (hsome : days ≠ [])
    (hitems : itemsOf value = .ok (days.map Weekday.name)) :
    ∃ d : Date, ctx.now.date.IsNextOn days d ∧ d.day < ctx.now.date.day + 7 ∧
      ∀ entry ∈ Schema.stretches, ∀ key ∈ ["start", "end"], ∀ args : List (String × Value),
        (args.map Prod.fst).Nodup → (key, .call "day_name" [("name", value)]) ∈ args →
        ∀ g, (¬ ∃ problem, entry.2.IsProblem ctx args g problem ∧ problem.1 ≠ key) →
        ∃ s simple g', (ctx.callSection entry.1 args).run g = .ok (.ok s, g') ∧
          s.simplify ctx = pure simple ∧
          s.boundNamed? key = some (.moment (Instant.on d .midnight)) ∧
          simple.boundNamed? key = some (.moment (Instant.on d .midnight)) := by
  have hweek : ctx.HasWeekLeft := by
    unfold Context.HasWeekLeft
    omega
  obtain ⟨d, hnext, hfirst, hwithin⟩ := nextWeekday_eq_pure (SortedSet.isEmpty_ofList hsome) hweek
  refine ⟨d, hfirst.of_ofList, hwithin,
    fun entry hentry key hkey args hnodup hargument g hothers => ?_⟩
  have hmade := callSection_weekdays hregistry hsome hitems
  obtain ⟨s, g', hcall, hs⟩ := exists_callSection_of_bound hregistry hweek hentry hkey hnodup
    hargument (fun forever => FieldKind.check_bound_call hmade (toBound_weekdays hnext forever))
    hothers
  obtain ⟨simple, hsimple, hsame⟩ := Section.exists_simplify_of_boundNamed? hs
  exact ⟨s, simple, g', hcall, hsimple, hs, hsame⟩

/-- Monday or Tuesday, told on the evening of the last Sunday of 2023: the first of January. -/
theorem weekdays_bound_next_date_new_year :
    let ctx : Context :=
      { registry := .defaults, now := ⟨1704043800, 0, by decide, by decide, by decide, by decide⟩ }
    let days : Value := .list ["tues", "mon"]
    let args : List (String × Value) := [("start", .call "day_name" [("name", days)])]
    let newYear : Date := ⟨19723, by decide, by decide⟩
    read "between(start: day_name(name: tues;mon))" = .ok (.call "between" args ⟨0, 40⟩) ∧
      ctx.now.date.IsNextOn [.tuesday, .monday] newYear ∧
      ctx.callSection "between" args = pure (.between (Instant.on newYear .midnight) none) := by
  intro ctx days args newYear
  have hroom : ctx.now.date.day + 7 ≤ lastDay := by decide
  have hitems : itemsOf days = .ok ([.tuesday, .monday].map Weekday.name) := rfl
  have hrun : (checkFields ctx (ctx.arguments args) Schema.between.fields :
      Reduction SpecError _).run .least = .ok (.ok [("start",
        .ok (some (.bound (.moment (Instant.on newYear .midnight))))),
        ("end", .ok none)], .least) := by
    rfl
  obtain ⟨_, ⟨⟩, hturns⟩ := run_checkFields_eq_ok_iff.1 hrun
  have hnone : ¬ ∃ problem, Schema.between.IsProblem ctx args .least problem :=
    (Schema.problems_eq_nil_iff (by decide) hturns).1 (by rfl)
  have hbuilt : ctx.callSection "between" args =
      pure (.between (Instant.on newYear .midnight) none) := by rfl
  obtain ⟨d, hnext, -, hbound⟩ :=
    weekdays_bound_next_date (rfl : ctx.registry = .defaults) hroom (by decide) hitems
  obtain ⟨s, -, g', hcall, -, hs, -⟩ := hbound ("between", .between) (.tail _ (.head _)) "start"
    (.head _) args (by decide) (.head _) .least fun ⟨_, hproblem, _⟩ => hnone ⟨_, hproblem⟩
  rw [hbuilt, run_pure] at hcall
  cases hcall
  have hdate := congrArg Instant.date (Bound.moment.inj (Option.some.inj hs))
  rw [Instant.date_on, Instant.date_on] at hdate
  exact ⟨by rfl, hdate ▸ hnext, hbuilt⟩

end Almanac

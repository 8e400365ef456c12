import Almanac.Proofs.Expression.Calls
import Almanac.Proofs.Reduction.NormalForm
import Almanac.Proofs.Schema.Build
import Almanac.Proofs.Text.Numeral

/-!
Expressions that need neither a clock nor a draw. Few sections are made anew by every clock; where
none of them is called, nested calls included, an expression means the same at all times, and it
fails with the same error.
-/

namespace Almanac

open Calendar Occurrence Expression Reduction

variable {ctx other : Context}

/-- Neither a clock nor a draw changes what the section comes down to, as an argument included. -/
def Section.IsTimeless : Section → Prop
  | .now | .sunrise | .sunset | .time _ | .weekdays _ | .yearDay _ | .range _ _ => False
  | .literal l => l.kind ≠ .time
  | _ => True

/-- The names of the sections that a clock or a draw has a part in. -/
def Expression.timedNames : List String :=
  ["now", "sunrise", "sunset", "time", "day_name", "day_number", "range"]

/-- The call makes a section that a clock and a draw have no part in. -/
def Expression.IsTimelessCall (call : Call) : Prop :=
  call.1 ∉ timedNames ∧
    (call.1 = "iso8601" → Keyed.get? call.2 "type" ≠ some (.text "time"))

namespace Section

variable {s : Section}

/-- Only what the clock shows and what is drawn is different from one context to another. -/
theorem coincide_simplify (hnow : s.kind ≠ .now) (hrange : s.kind ≠ .range)
    (ctx other : Context) : (s.simplify ctx).Coincide (s.simplify other) := by
  cases s with
  | now => exact absurd rfl hnow
  | range low high => exact absurd rfl hrange
  | literal l => exact .ofExcept _
  | epoch seconds =>
    simp only [simplify]
    cases epochInstant? seconds with
    | some i => exact .pure _
    | none => exact .ofExcept _
  | _ => exact .pure _

theorem IsTimeless.coincide_simplify (h : s.IsTimeless) (ctx other : Context) :
    (s.simplify ctx).Coincide (s.simplify other) := by
  refine Section.coincide_simplify (fun hkind => ?_) (fun hkind => ?_) ctx other <;>
    cases s <;> first | exact h | cases hkind

theorem IsTimeless.coincide_directBound (h : s.IsTimeless) (forever : Bool)
    (ctx other : Context) : (s.directBound ctx forever).Coincide (s.directBound other forever) := by
  cases s with
  | now | time c | weekdays days | yearDay number => cases h
  | moment i | date d => exact .pure _
  | recurrence | epoch | forever =>
    simp only [directBound]
    split <;> exact ⟨_, rfl, rfl⟩
  | _ => exact .ofExcept _

theorem isTimeless_of_expand_eq_ok {l : WrittenLiteral} {simple : Section}
    (h : (literal l).IsTimeless) (hexpand : l.expand = .ok simple) : simple.IsTimeless := by
  rcases expand_eq_ok hexpand with ⟨_, -, rfl⟩ | ⟨_, -, rfl⟩ | ⟨t, hvalue, -⟩ | ⟨_, -, rfl⟩ |
    ⟨_, _, -, -, rfl⟩
  case inr.inr.inl =>
    refine absurd ?_ h
    rw [WrittenLiteral.kind, hvalue, Literal.Value.kind]
  all_goals trivial

theorem IsTimeless.coincide_toBound (h : s.IsTimeless) (forever : Bool) (ctx other : Context) :
    (s.toBound ctx forever).Coincide (s.toBound other forever) := by
  cases s with
  | now | sunrise | sunset | time c | weekdays days | yearDay number | range low high => cases h
  | literal l =>
    refine ((h.coincide_simplify ctx other).mapError _).bind fun simple hsimple => ?_
    have hexpand := canReturn_ofExcept_iff.1 (canReturn_of_mapError hsimple)
    exact (isTimeless_of_expand_eq_ok h hexpand).coincide_directBound forever ctx other
  | _ => exact h.coincide_directBound forever ctx other

/-- No join makes anything that depends on a clock. -/
theorem coincide_simplify_of_join_eq_ok {joiner : Joiner} {left right joined : Section}
    (h : join joiner left right = .ok joined) (ctx other : Context) :
    (joined.simplify ctx).Coincide (joined.simplify other) := by
  have hkind : joined.kind ≠ .now ∧ joined.kind ≠ .range := by
    cases joiner with
    | or =>
      rcases or_eq_ok h with ⟨_, _, -, -, rfl⟩ | ⟨_, _, -, -, rfl⟩ | ⟨_, _, -, -, -, rfl⟩ <;>
        exact ⟨nofun, nofun⟩
    | and =>
      have hkind := kind_of_and_eq_ok h
      constructor <;> intro heq <;> simp [heq] at hkind
  exact coincide_simplify hkind.1 hkind.2 ctx other

end Section

/-- An argument names no section that depends on a clock, and nothing is drawn to find it. -/
def Argument.IsTimeless (a : Argument) : Prop :=
  ∀ x, a.named = some x → x.Coincide x ∧ ∀ s, x.CanReturn s → s.IsTimeless

variable {a : Argument} {args : List (String × Argument)}

theorem Argument.IsTimeless.coincide_toSection (ha : a.IsTimeless) :
    a.toSection.Coincide a.toSection := by
  unfold toSection
  split
  case h_1 x hx => exact (ha x hx).1.mapError _
  case h_2 => exact .ofExcept _

theorem Argument.IsTimeless.of_canReturn_toSection (ha : a.IsTimeless) {s : Section}
    (h : a.toSection.CanReturn s) : s.IsTimeless := by
  obtain ⟨x, hx, hs⟩ := exists_of_canReturn_toSection h
  exact (ha x hx).2 s hs

theorem Argument.IsTimeless.coincide_check (ha : a.IsTimeless) (kind : FieldKind)
    (ctx other : Context) : (kind.check ctx a).Coincide (kind.check other a) := by
  cases kind with
  | subsection kinds =>
    refine ha.coincide_toSection.bind fun s hs => ?_
    have hsimple := (ha.of_canReturn_toSection hs).coincide_simplify ctx other
    exact (hsimple.mapError _).bind fun _ _ => .ofExcept _
  | bound forever =>
    refine .map (ha.coincide_toSection.bind fun s hs => ?_) _
    exact (ha.of_canReturn_toSection hs).coincide_toBound forever ctx other
  | _ => exact .ofExcept _

theorem Field.coincide_check (hargs : ∀ entry ∈ args, entry.2.IsTimeless) (field : Field)
    (ctx other : Context) : (field.check ctx args).Coincide (field.check other args) := by
  unfold Field.check
  split
  case h_1 a ha =>
    have htimeless := hargs _ (Keyed.mem_of_get?_eq_some ha)
    exact (htimeless.coincide_check field.kind ctx other).map some
  case h_2 =>
    split
    · exact .ofExcept _
    · exact .pure _

theorem coincide_checkFields {ε : Type} (hargs : ∀ entry ∈ args, entry.2.IsTimeless)
    (ctx other : Context) (fields : List Field) :
    (checkFields ctx args fields : Reduction ε _).Coincide (checkFields other args fields) := by
  induction fields with
  | nil => exact .pure _
  | cons field rest ih =>
    exact (field.coincide_check hargs ctx other).attempt.bind fun _ _ =>
      ih.bind fun _ _ => .pure _

theorem Schema.coincide_apply (hargs : ∀ entry ∈ args, entry.2.IsTimeless) (schema : Schema)
    (name : String) (ctx other : Context) :
    (schema.apply ctx name args).Coincide (schema.apply other name args) :=
  (coincide_checkFields hargs ctx other schema.fields).bind fun _ _ => .ofExcept _

section Calls

variable {name : String} {args : List (String × Value)}

/-- Of all values only a text is shown as the name of a kind of literals. -/
theorem eq_text_of_textOf_eq_kindName {v : Value} {kind : Literal.Kind}
    (h : textOf v = .ok kind.name) : v = .text kind.name := by
  cases v with
  | text s =>
    cases h
    rfl
  | integer n =>
    have hname : Text.integer n = kind.name := Except.ok.inj h
    have hsign : kind.name.toList.all (fun c => c = '-' || c.isDigit) = true := by
      rw [← hname, List.all_eq_true]
      exact fun c hc => by simpa using Text.eq_minus_or_isDigit_of_mem_integer hc
    exact absurd hsign (by cases kind <;> decide)
  | boolean b =>
    have hname : booleanText b = kind.name := Except.ok.inj h
    cases b <;> cases kind <;> exact absurd hname (by decide)
  | list items | call name args | given s => cases h

/-- What makes a literal is a call of its section with the kind of the literal as its type. -/
theorem type_of_callSection_literal (hregistry : ctx.registry = .defaults)
    {l : WrittenLiteral} (h : (ctx.callSection name args).CanReturn (.literal l)) :
    name = "iso8601" ∧ Keyed.get? args "type" = some (.text l.kind.name) := by
  obtain ⟨schema, _, outcomes, _, hmem, hturns, hbuild⟩ :=
    Context.exists_of_canReturn_call hregistry h
  obtain ⟨kind, hkind, hmakes⟩ := Schema.exists_makes_of_mem_defaults hmem
  cases hmakes _ _ hbuild
  obtain rfl : name = "iso8601" := by simpa [Schema.kinds, Section.kind] using hkind
  obtain rfl : schema = Schema.literal := by simpa [Schema.defaults] using hmem
  obtain ⟨l, htype, -, -, hl⟩ := Schema.build_literal_eq_ok hbuild
  cases hl
  obtain ⟨field, hfield, hname, hcheck⟩ := hturns.exists_of_mem (mem_of_get?_fieldValues htype)
  obtain ⟨a, ha, hcheck⟩ := Field.exists_of_canReturn_check hcheck
  rw [hname, Context.get?_arguments] at ha
  obtain ⟨v, hv, rfl⟩ := Option.map_eq_some_iff.1 ha
  obtain rfl : field = .must "type" (.choice Literal.Kind.names) := by
    rcases List.mem_cons.1 hfield with rfl | hfield
    · rfl
    · rw [List.mem_singleton.1 hfield] at hname
      exact absurd hname (by decide)
  obtain ⟨_, hchoice, hsame⟩ := exists_of_map_eq_ok (canReturn_ofExcept_iff.1 hcheck)
  cases hsame
  obtain ⟨_, htext, hchoice⟩ := exists_of_bind_eq_ok hchoice
  obtain ⟨rfl, -⟩ := checkChoice_eq_ok hchoice
  exact ⟨rfl, eq_text_of_textOf_eq_kindName htext ▸ hv⟩

theorem isTimeless_of_callSection (hregistry : ctx.registry = .defaults)
    (hcall : IsTimelessCall (name, args)) {s : Section}
    (h : (ctx.callSection name args).CanReturn s) : s.IsTimeless := by
  obtain ⟨schema, _, _, _, hmem, -, hbuild⟩ := Context.exists_of_canReturn_call hregistry h
  obtain ⟨kind, hkind, hmakes⟩ := Schema.exists_makes_of_mem_defaults hmem
  cases hmakes _ _ hbuild
  have huntimed : ∀ entry ∈ Schema.kinds, entry.1 ∉ timedNames → entry.2 ∉
      [Section.Kind.now, .sunrise, .sunset, .time, .weekdays, .yearDay, .range] := by decide
  have hkept := huntimed _ hkind hcall.1
  cases s with
  | now | sunrise | sunset | time | weekdays | yearDay | range =>
    exact absurd hkept (by simp [Section.kind])
  | literal l =>
    obtain ⟨rfl, htype⟩ := type_of_callSection_literal hregistry h
    intro htime
    rw [htime] at htype
    exact hcall.2 rfl htype
  | _ => trivial

end Calls

namespace Expression

/-- The phrase means the same in both contexts, where nothing is drawn, and a value names no section
that depends on them. -/
def Phrase.IsTimeless (ctx other : Context) : Phrase → Prop
  | .call name args => (ctx.callSection name args).Coincide (other.callSection name args) ∧
      ∀ s, (ctx.callSection name args).CanReturn s → s.IsTimeless
  | .arguments args =>
    ∀ argument ∈ args, ctx.argument argument = other.argument argument ∧
      (ctx.argument argument).2.IsTimeless
  | .argument key v => ctx.argument (key, v) = other.argument (key, v) ∧
      (ctx.argument (key, v)).2.IsTimeless
  | .value v => ctx.named? v = other.named? v ∧
      ∀ x, ctx.named? v = some x → x.Coincide x ∧ ∀ s, x.CanReturn s → s.IsTimeless
  | .term _ tree | .chain _ tree => (tree.reduce ctx).Coincide (tree.reduce other)

theorem isTimeless_call (hregistry : ctx.registry = .defaults)
    (hother : other.registry = .defaults) {args : List (String × Value)}
    (hargs : (Phrase.arguments args).IsTimeless ctx other) {name : String}
    (hcall : IsTimelessCall (name, Keyed.ofList args)) :
    (Phrase.call name (Keyed.ofList args)).IsTimeless ctx other := by
  refine ⟨?_, fun s hs => isTimeless_of_callSection hregistry hcall hs⟩
  have hsame : ctx.arguments (Keyed.ofList args) = other.arguments (Keyed.ofList args) := by
    rw [Context.arguments_eq_map, Context.arguments_eq_map]
    exact List.map_congr_left fun argument hmem => (hargs _ (Keyed.mem_of_mem_ofList hmem)).1
  have htimeless : ∀ entry ∈ ctx.arguments (Keyed.ofList args), entry.2.IsTimeless :=
    Context.forall_mem_arguments_ofList fun argument hmem => (hargs argument hmem).2
  unfold Context.callSection Context.call
  rw [← hsame, hregistry, hother]
  cases Registry.defaults.resolve? name with
  | none => exact .ofExcept _
  | some schema => exact schema.coincide_apply htimeless name ctx other

theorem coincide_reduce_join {joiner : Joiner} {left right : Tree}
    (hleft : (left.reduce ctx).Coincide (left.reduce other))
    (hright : (right.reduce ctx).Coincide (right.reduce other)) :
    ((Tree.join joiner left right).reduce ctx).Coincide
      ((Tree.join joiner left right).reduce other) := by
  rw [Tree.reduce_join, Tree.reduce_join]
  refine hleft.bind fun reducedLeft _ => hright.bind fun reducedRight _ => ?_
  refine (Coincide.ofExcept _).bind fun joined hjoined => ?_
  exact Section.coincide_simplify_of_join_eq_ok (canReturn_ofExcept_iff.1 hjoined) ctx other

/-- A phrase that calls no section with a part in time means the same at all times. -/
theorem isTimeless_of_spells (hregistry : ctx.registry = .defaults)
    (hother : other.registry = .defaults) {w : List Char} {phrase : Phrase}
    (h : Spells w phrase) (hcalls : ∀ call ∈ phrase.calls, IsTimelessCall call) :
    phrase.IsTimeless ctx other := by
  induction h with
  | emptyCall hname hbefore hinside =>
    have hnone : (Phrase.arguments []).IsTimeless ctx other :=
      List.forall_mem_nil _
    exact isTimeless_call hregistry hother hnone (hcalls _ (List.mem_cons_self ..))
  | call hname hbefore hfirst hargs hlast hdistinct ih =>
    obtain ⟨hcall, hnested⟩ := List.forall_mem_cons.1 hcalls
    refine isTimeless_call hregistry hother (ih fun call hmem => hnested call ?_) hcall
    exact (mem_callsOfArguments_ofList hdistinct).2 hmem
  | firstArgument h ih =>
    rw [Phrase.calls, callsOfArguments_singleton] at hcalls
    exact List.forall_mem_singleton.2 (ih hcalls)
  | furtherArgument hargs hbefore hafter h ihargs ih =>
    rw [Phrase.calls, callsOfArguments_append, callsOfArguments_singleton] at hcalls
    obtain ⟨hfirst, hlast⟩ := List.forall_mem_append.1 hcalls
    exact List.forall_mem_append.2 ⟨ihargs hfirst, List.forall_mem_singleton.2 (ih hlast)⟩
  | argument hkey hbefore hafter h ih =>
    obtain ⟨hsame, htimeless⟩ := ih hcalls
    rw [Phrase.IsTimeless, Context.argument, Context.argument, hsame]
    exact ⟨rfl, hsame ▸ htimeless⟩
  | nested h ih =>
    obtain ⟨hsame, htimeless⟩ := ih hcalls
    refine ⟨congrArg some hsame.eq, fun x hx => ?_⟩
    rw [Context.named?, Option.some.injEq] at hx
    subst hx
    exact ⟨hsame.self, htimeless⟩
  | token hrun hsome =>
    rw [Phrase.IsTimeless, named?_ofToken, named?_ofToken]
    exact ⟨rfl, fun x hx => by cases hx⟩
  | term h ih =>
    obtain ⟨hsame, htimeless⟩ := ih hcalls
    exact hsame.bind fun s hs => (htimeless s hs).coincide_simplify ctx other
  | parentheses hbefore h hafter ih => exact ih hcalls
  | single h ih => exact ih hcalls
  | join hleft hbefore hafter hright ihleft ihright =>
    obtain ⟨hfirst, hlast⟩ := List.forall_mem_append.1 hcalls
    exact coincide_reduce_join (ihleft hfirst) (ihright hlast)

/-- What is read means the same whatever the clock shows and whatever generator there is, if it
calls no section with a part in time: it is the same section or fails with the same error, and
nothing is drawn. -/
theorem Tree.meaning_eq_of_isTimelessCall {text : String} {tree : Tree}
    (hread : read text = .ok tree) (hregistry : ctx.registry = .defaults)
    (hother : other.registry = .defaults) (hcalls : ∀ call ∈ tree.calls, IsTimelessCall call)
    (complete : Bool) : ∃ outcome, ∀ g,
      (tree.meaning ctx complete).run g = .ok (outcome, g) ∧
      (tree.meaning other complete).run g = .ok (outcome, g) := by
  obtain ⟨_, _, _, -, -, -, hspells⟩ := isExpression_of_read_eq_ok hread
  have hreduce : (tree.reduce ctx).Coincide (tree.reduce other) :=
    isTimeless_of_spells hregistry hother hspells hcalls
  obtain ⟨outcome, hmeaning, hsame⟩ := hreduce.bind fun s _ =>
    .ofExcept (if complete then s.checkComplete else .ok s)
  refine ⟨outcome, fun g => ⟨?_, ?_⟩⟩
  · exact congrArg (run · g) hmeaning
  · exact congrArg (run · g) hsame

/-- Weekly from the first of January in 1970 on, asked for in 1970 and in 1997. -/
theorem Tree.meaning_eq_of_isTimelessCall_weekly :
    let ctx : Context := { registry := .defaults, now := .midnight 0 (by decide) }
    let other : Context := { registry := .defaults, now := .midnight 9999 (by decide) }
    let text := "between(start: date(year: 1970, month: 1, day: 1)) & " ++
      "interval(every: iso8601(type: duration, specification: P1W))"
    ∃ tree, read text = .ok tree ∧ (∀ call ∈ tree.calls, IsTimelessCall call) ∧
      ∃ outcome, (tree.meaning ctx true).run .least = .ok (outcome, .least) ∧
        (tree.meaning other true).run .rising = .ok (outcome, .rising) := by
  intro ctx other text
  have hshape : (read text).toOption.map (fun tree =>
      tree.calls.map fun call => (call.1, (Keyed.get? call.2 "type").map Value.written)) =
        some [("between", none), ("date", none), ("interval", none),
          ("iso8601", some "duration")] := by
    decide +kernel
  obtain ⟨tree, htree, hnames⟩ := Option.map_eq_some_iff.1 hshape
  have htree := eq_ok_of_toOption_eq_some htree
  have hcalls : ∀ call ∈ tree.calls, IsTimelessCall call := by
    intro call hcall
    have hname := List.mem_map_of_mem (f := fun call : Call =>
      (call.1, (Keyed.get? call.2 "type").map Value.written)) hcall
    rw [hnames] at hname
    have huntimed : ∀ entry ∈ [("between", none), ("date", none), ("interval", none),
        ("iso8601", some "duration")], entry.1 ∉ timedNames ∧ entry.2 ≠ some "time" := by decide
    obtain ⟨huntimed, htype⟩ := huntimed _ hname
    exact ⟨huntimed, fun _ htime => htype (congrArg (Option.map Value.written) htime)⟩
  have hregistry : ctx.registry = .defaults := rfl
  have hother : other.registry = .defaults := rfl
  obtain ⟨outcome, hsame⟩ := meaning_eq_of_isTimelessCall htree hregistry hother hcalls true
  exact ⟨tree, htree, hcalls, outcome, (hsame .least).1, (hsame .rising).2⟩

end Expression

end Almanac

import Almanac.Proofs.Literal.Written
import Almanac.Proofs.Reduction.Join
import Almanac.Proofs.Reduction.Shown

/-!
Ways to write a moment. A date and a time of day may stand side by side, in either order, each as a
literal or in numbers, and both together may be one literal. All of these come down to the same
moment.
-/

namespace Almanac

open Calendar Occurrence Expression Reduction

variable {ctx : Context} {d : Date} {t : TimeOfDay} {s simple left right joined : Section}
  {text other : String}

namespace Section

/-- The text is a term that comes down to the section. -/
def IsTerm (s : Section) (ctx : Context) (text : String) : Prop :=
  ∀ start, ∃ tree, Spells text.toList (.term start tree) ∧ tree.reduce ctx = pure s

theorem isTerm_of_callSection {name : String} {args : List (String × Value)}
    (hspells : Spells text.toList (.call name args)) (hmade : ctx.callSection name args = pure s)
    (hsimple : s.simplify ctx = pure simple) : simple.IsTerm ctx text := by
  refine fun start => ⟨_, .term hspells, ?_⟩
  rw [Tree.reduce, Context.simpleSection, hmade, pure_bind, hsimple]

theorem IsCalledBy.isTerm (h : s.IsCalledBy text) (hregistry : ctx.registry = .defaults)
    (hsimple : s.simplify ctx = pure simple) : simple.IsTerm ctx text := by
  obtain ⟨name, args, hspells, hmade⟩ := h
  exact isTerm_of_callSection hspells (hmade ctx hregistry) hsimple

/-- What a whole chain comes down to. -/
theorem ofText_of_spells {tree : Tree} (hspells : Spells text.toList (.chain 0 tree))
    (hreduce : tree.reduce ctx = pure s) (complete : Bool) :
    ofText ctx complete text = .ofExcept (if complete then s.checkComplete else .ok s) := by
  rw [ofText, read_of_spells hspells]
  change tree.reduce ctx >>= _ = _
  rw [hreduce, pure_bind]

theorem IsTerm.ofText_eq (h : s.IsTerm ctx text) (complete : Bool) :
    ofText ctx complete text = .ofExcept (if complete then s.checkComplete else .ok s) := by
  obtain ⟨tree, hspells, hreduce⟩ := h 0
  exact ofText_of_spells (.single hspells) hreduce complete

theorem IsTerm.ofText_and (hleft : left.IsTerm ctx text) (hright : right.IsTerm ctx other)
    (hand : left.and right = .ok joined) (hsimple : joined.simplify ctx = pure s)
    (complete : Bool) :
    ofText ctx complete (text ++ " & " ++ other) =
      .ofExcept (if complete then s.checkComplete else .ok s) := by
  obtain ⟨leftTree, hleftSpells, hleftReduce⟩ := hleft 0
  obtain ⟨rightTree, hrightSpells, hrightReduce⟩ := hright
    (0 + String.utf8Len (text.toList ++ [' '] ++ Joiner.and.sign :: [' ']))
  have hblank : IsBlanks [' '] := IsBlanks.cons rfl IsBlanks.nil
  have hchain : Spells _ (.chain 0 (.join .and leftTree rightTree)) :=
    .join (.single hleftSpells) hblank hblank hrightSpells
  refine ofText_of_spells (by simpa [Joiner.sign] using hchain) ?_ complete
  rw [Tree.reduce_join, hleftReduce, pure_bind, hrightReduce, pure_bind]
  change ofExcept (left.and right) >>= simplify ctx = _
  rw [hand]
  exact hsimple

end Section

/-- A literal with some sign in it is no number, so its text is kept. -/
theorem WrittenLiteral.isLegible_of_read {token : List Char} {value : Literal.Value}
    (hbare : IsBareToken token) (hsign : ∃ c ∈ token, c.isDigit = false)
    (hread : Literal.read value.kind token = .ok value) :
    WrittenLiteral.IsLegible ⟨String.ofList token, value⟩ where
  isLegibleText := by
    have hwritten : (Value.ofToken token).written = String.ofList token := by
      rcases written_ofToken hbare.isSolid with hwritten | ⟨n, -, hnumber⟩
      · exact String.toList_inj.1 (by simpa using hwritten)
      · obtain ⟨c, hc, hsign⟩ := hsign
        have hn := Text.readInteger?_of_readWord64?_eq_some
          (readWord64?_of_ofToken_eq_integer hnumber)
        rw [Literal.isDigit_of_read_eq_ok hread hn c hc] at hsign
        cases hsign
    have hsome : token ≠ [] := Literal.ne_nil_of_read_eq_ok hread
    refine ⟨.ofToken token, ?_, ?_⟩
    · rw [String.toList_ofList]
      exact hbare.spells hsome
    · rw [textOf_ofToken hbare.isSingle, hwritten]
  read_eq_ok := by
    change WrittenLiteral.read value.kind (String.ofList token) = _
    simp only [WrittenLiteral.read, String.toList_ofList, hread]

namespace Literal

/-- Characters that are written of a date or a time of day. -/
def IsPlain (token : List Char) : Prop :=
  ∀ c ∈ token, c.isDigit = true ∨ c ∈ ['-', ':', 'T']

theorem isPlain_paddedDigits (width value : Nat) : IsPlain (Text.paddedDigits width value) :=
  fun _ hc => Or.inl (Text.isDigit_of_mem_paddedDigits hc)

theorem IsPlain.append {token more : List Char} (h : IsPlain token) (hmore : IsPlain more) :
    IsPlain (token ++ more) :=
  List.forall_mem_append.2 ⟨h, hmore⟩

theorem IsPlain.marked {token : List Char} {c : Char} (hc : c ∈ ['-', ':', 'T'])
    (h : IsPlain token) : IsPlain (c :: token) :=
  List.forall_mem_cons.2 ⟨Or.inr hc, h⟩

theorem IsPlain.isBareToken {token : List Char} (h : IsPlain token) : IsBareToken token := by
  refine isBareToken_of_isDigit_or_mem ?_ h
  simp only [List.forall_mem_cons]
  simp [Text.isBlank, isDelimiter]

theorem DateForm.isPlain_text (d : Date) : IsPlain (DateForm.extended.text d) :=
  ((isPlain_paddedDigits _ _).append ((isPlain_paddedDigits _ _).marked (by decide))).append
    ((isPlain_paddedDigits _ _).marked (by decide))

theorem TimeForm.isPlain_text (t : TimeOfDay) : IsPlain (TimeForm.second.text t) :=
  ((isPlain_paddedDigits _ _).append ((isPlain_paddedDigits _ _).marked (by decide))).append
    ((isPlain_paddedDigits _ _).marked (by decide))

theorem nano_lt_of_whole (hwhole : t.nano = 0) : t.nano < nanosPerSecond := by
  rw [hwhole]
  decide

/-- A time of day in whole seconds is written in full. -/
theorem TimeForm.kept_second_of_whole (hwhole : t.nano = 0) : TimeForm.second.kept t = t := by
  obtain ⟨second, nano, _, _, _⟩ := t
  cases hwhole
  rfl

end Literal

open Literal

/-- The time of day as a literal, with colons. -/
def timeLiteral (t : TimeOfDay) : String :=
  "iso8601(type: time, specification: " ++ String.ofList (TimeForm.second.text t) ++ ")"

/-- The date as a literal, with hyphens. -/
def dateLiteral (d : Date) : String :=
  "iso8601(type: date, specification: " ++ String.ofList (DateForm.extended.text d) ++ ")"

/-- Date and time of day as one literal. -/
def momentLiteral (d : Date) (t : TimeOfDay) : String :=
  "iso8601(type: datetime, specification: " ++
    String.ofList (DateForm.extended.text d ++ 'T' :: TimeForm.second.text t) ++ ")"

/-- Hour and minute of the time of day. -/
def timeCall (t : TimeOfDay) : String :=
  "time(hour: " ++ Text.natural t.hour ++ ", minute: " ++ Text.natural t.minute ++ ")"

/-- Year, month and day of the date. -/
def dateCall (d : Date) : String :=
  "date(year: " ++ Text.integer d.year ++ ", month: " ++ Text.natural d.month ++ ", day: " ++
    Text.natural d.dayOfMonth ++ ")"

/-- A literal that is written plainly, with some sign, is the call that its text makes. -/
theorem isCalledBy_of_read (value : Literal.Value) {token : List Char} {start : String}
    (hstart : start = "iso8601(type: " ++ value.kind.name ++ ", specification: ")
    (hplain : IsPlain token) (hsign : ∃ c ∈ token, c.isDigit = false)
    (hread : Literal.read value.kind token = .ok value) :
    (Section.literal ⟨String.ofList token, value⟩).IsCalledBy
      (start ++ String.ofList token ++ ")") := by
  rw [hstart]
  exact isCalledBy_literal (WrittenLiteral.isLegible_of_read hplain.isBareToken hsign hread)

theorem isTerm_timeLiteral (hregistry : ctx.registry = .defaults) (hwhole : t.nano = 0) :
    (Section.time (ClockTime.ofTimeOfDay t)).IsTerm ctx (timeLiteral t) := by
  have hread : Literal.read .time (TimeForm.second.text t ++ []) =
      .ok (.time (TimeForm.second.kept t)) :=
    TimeForm.read_text trivial (nano_lt_of_whole hwhole) (Or.inl rfl)
  rw [List.append_nil, TimeForm.kept_second_of_whole hwhole] at hread
  have hsign : ∃ c ∈ TimeForm.second.text t, c.isDigit = false :=
    ⟨':', by simp [TimeForm.text], rfl⟩
  exact (isCalledBy_of_read (.time t) (by rfl) (TimeForm.isPlain_text t) hsign hread).isTerm
    hregistry rfl

theorem isTerm_dateLiteral (hregistry : ctx.registry = .defaults)
    (hyear : 0 ≤ d.year ∧ d.year ≤ 9999) : (Section.date d).IsTerm ctx (dateLiteral d) := by
  have hread := DateForm.extended.read_text hyear
  have hsign : ∃ c ∈ DateForm.extended.text d, c.isDigit = false :=
    ⟨'-', by simp [DateForm.text], rfl⟩
  exact (isCalledBy_of_read (.date d) (by rfl) (DateForm.isPlain_text d) hsign hread).isTerm
    hregistry rfl

theorem isCalledBy_momentLiteral (hyear : 0 ≤ d.year ∧ d.year ≤ 9999) (hwhole : t.nano = 0) :
    ∃ l : WrittenLiteral, l.value = .dateTime (Instant.on d t) ∧
      (Section.literal l).IsCalledBy (momentLiteral d t) := by
  have hproper : TimeForm.second.IsProper := trivial
  have hread := TimeForm.read_dateTime_text hproper hyear
    (nano_lt_of_whole hwhole) (Or.inl rfl : ([] : List Char) = [] ∨ [] = ['Z'])
  rw [List.append_nil, TimeForm.kept_second_of_whole hwhole] at hread
  have hplain : IsPlain (DateForm.extended.text d ++ 'T' :: TimeForm.second.text t) :=
    (DateForm.isPlain_text d).append ((TimeForm.isPlain_text t).marked (by decide))
  have hsign : ∃ c ∈ DateForm.extended.text d ++ 'T' :: TimeForm.second.text t, c.isDigit = false :=
    ⟨'T', by simp, rfl⟩
  exact ⟨_, rfl, isCalledBy_of_read (.dateTime (Instant.on d t)) (by rfl) hplain hsign hread⟩

theorem isTerm_momentLiteral (hregistry : ctx.registry = .defaults)
    (hyear : 0 ≤ d.year ∧ d.year ≤ 9999) (hwhole : t.nano = 0) :
    (Section.moment (Instant.on d t)).IsTerm ctx (momentLiteral d t) := by
  obtain ⟨⟨written, value⟩, hvalue, hcalled⟩ := isCalledBy_momentLiteral hyear hwhole
  cases hvalue
  exact hcalled.isTerm hregistry rfl

theorem isWord64_of_fourDigits {n : Nat} (h : n ≤ 9999) : Text.IsWord64 n := by
  unfold Text.IsWord64
  omega

theorem isTerm_timeCall (hregistry : ctx.registry = .defaults) (hminute : t.secondOfMinute = 0) :
    (Section.time (ClockTime.ofTimeOfDay t)).IsTerm ctx (timeCall t) := by
  have hhour : .must "hour" (.integerWithin (.within 0 23)) ∈ Schema.time.fields := by
    simp [Schema.time]
  have hminuteField : .must "minute" (.integerWithin (.within 0 59)) ∈ Schema.time.fields := by
    simp [Schema.time]
  have hhourLt : t.hour < 24 := Nat.div_lt_of_lt_mul t.second_lt
  have hminuteLt : t.minute < 60 := Nat.mod_lt _ (by decide)
  have hcalled : (Section.time (ClockTime.ofTimeOfDay t)).IsCalledBy (timeCall t) := by
    have htext : timeCall t = callText "time"
        ([Entry.ofNumber "hour" t.hour, Entry.ofNumber "minute" t.minute].map Entry.written) := by
      rw [Entry.callText_pair]
      rfl
    rw [htext]
    refine isCalledBy_of_filled (by decide) rfl (by decide) rfl ?_ fun fields hfilled => ?_
    · rw [List.forall_mem_cons, List.forall_mem_singleton]
      exact ⟨Entry.accepts_ofNumber (by decide) hhour (isWord64_of_fourDigits (by omega))
          (Bounds.contains_within_iff.2 (by omega)),
        Entry.accepts_ofNumber (by decide) hminuteField (isWord64_of_fourDigits (by omega))
          (Bounds.contains_within_iff.2 (by omega))⟩
    · rw [List.forall_mem_cons, List.forall_mem_singleton] at hfilled
      rw [ClockTime.ofTimeOfDay, hminute]
      exact Schema.build_time (hhourLt.trans (by decide)) (hminuteLt.trans (by decide)) hfilled.1
        hfilled.2
  exact hcalled.isTerm hregistry rfl

theorem isTerm_dateCall (hregistry : ctx.registry = .defaults)
    (hyear : 0 ≤ d.year ∧ d.year ≤ 9999) : (Section.date d).IsTerm ctx (dateCall d) := by
  have hyearField : .must "year" .integer ∈ Schema.date.fields := by simp [Schema.date]
  have hmonthField : .must "month" (.integerWithin (.within 1 12)) ∈ Schema.date.fields := by
    simp [Schema.date]
  have hdayField : .must "day" (.integerWithin (.within 1 31)) ∈ Schema.date.fields := by
    simp [Schema.date]
  have hmonth := d.month_bounds
  have hday := d.dayOfMonth_bounds
  obtain ⟨year, hsame⟩ := Int.eq_ofNat_of_zero_le hyear.1
  have hcalled : (Section.date d).IsCalledBy (dateCall d) := by
    have htext : dateCall d = callText "date" ([Entry.ofNumber "year" year,
        Entry.ofNumber "month" d.month, Entry.ofNumber "day" d.dayOfMonth].map Entry.written) := by
      have hnatural : Text.integer d.year = Text.natural year := by
        rw [hsame, Text.integer_natCast]
      unfold dateCall
      rw [hnatural, Entry.callText_triple]
      rfl
    rw [htext]
    refine isCalledBy_of_filled (by decide) rfl (by decide) rfl ?_ fun fields hfilled => ?_
    · rw [List.forall_mem_cons, List.forall_mem_cons, List.forall_mem_singleton]
      exact ⟨Entry.accepts_ofAnyNumber (by decide) hyearField (isWord64_of_fourDigits (by omega)),
        Entry.accepts_ofNumber (by decide) hmonthField (isWord64_of_fourDigits (by omega))
          (Bounds.contains_within_iff.2 (by omega)),
        Entry.accepts_ofNumber (by decide) hdayField (isWord64_of_fourDigits (by omega))
          (Bounds.contains_within_iff.2 (by omega))⟩
    · rw [List.forall_mem_cons, List.forall_mem_cons, List.forall_mem_singleton] at hfilled
      refine Schema.build_date ?_ hfilled.2.1 hfilled.2.2
      rw [hsame]
      exact hfilled.1
  exact hcalled.isTerm hregistry rfl

theorem Section.momentAt_ofTimeOfDay (d : Date) (hwhole : t.nano = 0) :
    momentAt d (ClockTime.ofTimeOfDay t) = .ok (.moment (Instant.on d t)) := by
  have hsecond : t.secondOfMinute < 60 := Nat.mod_lt _ (by decide)
  have hnumbers := t.ofNumbers?_eq_self (nano_lt_of_whole hwhole)
  rw [hwhole] at hnumbers
  unfold momentAt ClockTime.timeOfDay?
  rw [ClockTime.ofTimeOfDay, if_pos hsecond, hnumbers]

/-- Neither side of `&` comes first. -/
theorem Section.ofText_time_and_date (hwhole : t.nano = 0)
    (htime : (Section.time (ClockTime.ofTimeOfDay t)).IsTerm ctx text)
    (hdate : (Section.date d).IsTerm ctx other) (complete : Bool) :
    ofText ctx complete (text ++ " & " ++ other) = pure (.moment (Instant.on d t)) ∧
      ofText ctx complete (other ++ " & " ++ text) = pure (.moment (Instant.on d t)) := by
  have hand := momentAt_ofTimeOfDay d hwhole
  constructor
  · rw [htime.ofText_and hdate hand rfl]
    cases complete <;> rfl
  · rw [hdate.ofText_and htime hand rfl]
    cases complete <;> rfl

/-- On this clock the text is an argument that names the end, and takes the generator from one
state to the other. -/
def Occurrence.Bound.IsNamedBy (b : Bound) (ctx : Context) (forever : Bool) (text : String)
    (g g' : Generator) : Prop :=
  ∃ v, Spells text.toList (.value v) ∧
    ((FieldKind.bound forever).check ctx ⟨v, ctx.named? v⟩).run g = .ok (.ok (.bound b), g')

variable {stop : Bound} {start : Instant} {g g' : Generator}

theorem exists_value_momentLiteral (hregistry : ctx.registry = .defaults)
    (hyear : 0 ≤ d.year ∧ d.year ≤ 9999) (hwhole : t.nano = 0) :
    ∃ v, Spells (momentLiteral d t).toList (.value v) ∧ ∀ forever,
      (FieldKind.bound forever).check ctx ⟨v, ctx.named? v⟩ =
        pure (.bound (.moment (Instant.on d t))) := by
  obtain ⟨⟨written, value⟩, hvalue, name, args, hspells, hmade⟩ :=
    isCalledBy_momentLiteral hyear hwhole
  cases hvalue
  exact ⟨.call name args, .nested hspells, fun _ =>
    FieldKind.check_bound_call (hmade ctx hregistry) rfl⟩

/-- What is accepted on this clock makes a term on it. -/
theorem Section.isTerm_of_acceptsIn {schema : Schema} {name : String} {entries : List Entry}
    (hregistry : ctx.registry = .defaults) (hname : IsName name.toList)
    (hresolve : Registry.defaults.resolve? name = some schema) (hdistinct : schema.IsDistinct)
    (hentries : ∀ e ∈ entries, schema.AcceptsIn ctx e) (hkeys : (entries.map Entry.key).Nodup)
    (hrequired : ∀ field ∈ schema.fields, field.required = true →
      field.name ∈ entries.map Entry.key)
    (hbuild : ∀ f : Fields, (∀ e ∈ entries, f.get? e.key = some e.checked) →
      (∀ key ∉ entries.map Entry.key, f.get? key = none) → schema.build f = .ok s)
    (hsimple : s.simplify ctx = pure simple) :
    simple.IsTerm ctx (Expression.callText name (entries.map Entry.written)) := by
  have hspells := spells_entries hname
    (fun e he => ⟨(hentries e he).isName, (hentries e he).spells⟩) hkeys
  rw [← hregistry] at hresolve
  have hmade := callSection_of_acceptsIn hdistinct hentries hkeys hresolve hrequired hbuild
  exact isTerm_of_callSection hspells hmade hsimple

/-- A stretch of time that is given no end goes on for ever. -/
theorem isTerm_between_start {v : Expression.Value} (hregistry : ctx.registry = .defaults)
    (hspells : Spells text.toList (.value v))
    (hstart : (FieldKind.bound false).check ctx ⟨v, ctx.named? v⟩ = pure (.bound (.moment start))) :
    (Section.recurrence ⟨start, some .forever, none⟩).IsTerm ctx
      ("between(start: " ++ text ++ ")") := by
  have hfield : .must "start" (.bound false) ∈ Schema.between.fields := by simp [Schema.between]
  have hname : IsName "start".toList := by decide
  have hv : Schema.between.AcceptsIn ctx ⟨"start", text, v, .bound (.moment start)⟩ :=
    ⟨hname, hspells, _, hfield, rfl, hstart⟩
  have htext : "between(start: " ++ text ++ ")" = callText "between"
      (([⟨"start", text, v, .bound (.moment start)⟩] : List Entry).map Entry.written) := by
    rw [Entry.callText_singleton]
    rfl
  rw [htext]
  have hresolve : Registry.defaults.resolve? "between" = some .between := rfl
  refine Section.isTerm_of_acceptsIn (s := .between start none) hregistry (by decide) hresolve
    (by decide) (List.forall_mem_singleton.2 hv) (List.nodup_singleton _) ?_
    (fun f hfilled hleft => ?_) rfl
  · simp [Schema.between, Field.must, Field.may]
  · have hend : f.get? "end" = none := hleft _ (by simp)
    rw [Schema.build_between (hfilled _ (List.mem_singleton_self _)), hend]
    rfl

/-- The arguments are filed by their names. -/
theorem spells_between_start_end {v w : Expression.Value} (hstart : Spells text.toList (.value v))
    (hstop : Spells other.toList (.value w)) :
    Spells ("between(start: " ++ text ++ ", end: " ++ other ++ ")").toList
      (.call "between" [("end", w), ("start", v)]) := by
  let startEntry : Entry := ⟨"start", text, v, .text text⟩
  let endEntry : Entry := ⟨"end", other, w, .text other⟩
  have hname : IsName "between".toList := by decide
  have hstartName : IsName "start".toList := by decide
  have hendName : IsName "end".toList := by decide
  have hentries : ∀ e ∈ [startEntry, endEntry],
      IsName e.key.toList ∧ Spells e.text.toList (.value e.value) := by
    rw [List.forall_mem_cons, List.forall_mem_singleton]
    exact ⟨⟨hstartName, hstart⟩, hendName, hstop⟩
  have htext : "between(start: " ++ text ++ ", end: " ++ other ++ ")" =
      callText "between" ([startEntry, endEntry].map Entry.written) := by
    rw [Entry.callText_pair]
    rfl
  have hbefore : "end" < "start" := by decide
  have hfiled : Keyed.ofList ([startEntry, endEntry].map Entry.argument) =
      [("end", w), ("start", v)] := by
    simp only [Entry.argument, startEntry, endEntry, Keyed.ofList, List.map_cons, List.map_nil,
      List.foldl_cons, List.foldl_nil, Keyed.insert, if_pos hbefore]
  have hcall := spells_entries hname hentries (by simp [startEntry, endEntry])
  rwa [hfiled, ← htext] at hcall

/-- The start has its turn first, and draws nothing. -/
theorem run_callSection_between {v w : Expression.Value} (hregistry : ctx.registry = .defaults)
    (hstart : (FieldKind.bound false).check ctx ⟨v, ctx.named? v⟩ = pure (.bound (.moment start)))
    (hstop : ((FieldKind.bound true).check ctx ⟨w, ctx.named? w⟩).run g =
      .ok (.ok (.bound stop), g')) :
    (ctx.callSection "between" [("end", w), ("start", v)]).run g =
      .ok (.ok (.between start (some stop)), g') := by
  have hresolve : ctx.registry.resolve? "between" = some .between := by
    rw [hregistry]
    rfl
  have hfirst : ((Field.must "start" (.bound false)).check ctx
      (ctx.arguments [("end", w), ("start", v)])).run g =
        .ok (.ok (some (.bound (.moment start))), g) := by
    rw [Field.check_arguments]
    change (some <$> (FieldKind.bound false).check ctx ⟨v, ctx.named? v⟩).run g = _
    rw [hstart, map_pure, run_pure]
  have hsecond : ((Field.may "end" (.bound true)).check ctx
      (ctx.arguments [("end", w), ("start", v)])).run g = .ok (.ok (some (.bound stop)), g') := by
    rw [Field.check_arguments]
    change (some <$> (FieldKind.bound true).check ctx ⟨w, ctx.named? w⟩).run g = _
    rw [run_map, hstop]
    rfl
  unfold Context.callSection Context.call
  rw [hresolve]
  refine Schema.run_apply_eq_ok_iff.2
    ⟨?_, _, .turn hfirst (.turn hsecond (.done g')), by simp, rfl⟩
  simp only [Context.arguments_eq_map, List.forall_mem_map, Context.fst_argument]
  simp [Schema.field?, Schema.between, Field.must, Field.may]

/-- The end may draw numbers to come about. -/
theorem run_ofText_between_start_end {v : Expression.Value} (hregistry : ctx.registry = .defaults)
    (hspells : Spells text.toList (.value v))
    (hstart : (FieldKind.bound false).check ctx ⟨v, ctx.named? v⟩ = pure (.bound (.moment start)))
    (hstop : stop.IsNamedBy ctx true other g g') :
    (Section.ofText ctx false ("between(start: " ++ text ++ ", end: " ++ other ++ ")")).run g =
      .ok (.ok (.recurrence ⟨start, some stop, none⟩), g') := by
  obtain ⟨w, hother, hstop⟩ := hstop
  have hmade := run_callSection_between hregistry hstart hstop
  have hreduce span : ((Tree.call "between" [("end", w), ("start", v)] span).reduce ctx).run g =
      .ok (.ok (.recurrence ⟨start, some stop, none⟩), g') :=
    run_bind_eq_ok_iff.2 ⟨_, _, hmade, rfl⟩
  rw [Section.ofText, read_of_spells (.single (.term (spells_between_start_end hspells hother)))]
  change (Tree.reduce ctx _ >>= _).run g = _
  exact run_bind_eq_ok_iff.2 ⟨_, _, hreduce _, rfl⟩

/-- Date and time of day come down to one moment, however they are written: as two literals or, up
to the minute, in numbers, in either order, or as one literal. This moment is also where a stretch
of time starts that is said to start with the literal. -/
theorem moment_however_written (hregistry : ctx.registry = .defaults)
    (hyear : 0 ≤ d.year ∧ d.year ≤ 9999) (hwhole : t.nano = 0) :
    (∀ complete,
      Section.ofText ctx complete (timeLiteral t ++ " & " ++ dateLiteral d) =
          pure (.moment (Instant.on d t)) ∧
        Section.ofText ctx complete (dateLiteral d ++ " & " ++ timeLiteral t) =
          pure (.moment (Instant.on d t)) ∧
        Section.ofText ctx complete (momentLiteral d t) = pure (.moment (Instant.on d t)) ∧
        (t.secondOfMinute = 0 →
          Section.ofText ctx complete (timeCall t ++ " & " ++ dateCall d) =
              pure (.moment (Instant.on d t)) ∧
            Section.ofText ctx complete (dateCall d ++ " & " ++ timeCall t) =
              pure (.moment (Instant.on d t)))) ∧
      Section.ofText ctx false ("between(start: " ++ momentLiteral d t ++ ")") =
        pure (.recurrence ⟨Instant.on d t, some .forever, none⟩) ∧
      ∀ stop text g g', Bound.IsNamedBy stop ctx true text g g' →
        (Section.ofText ctx false
            ("between(start: " ++ momentLiteral d t ++ ", end: " ++ text ++ ")")).run g =
          .ok (.ok (.recurrence ⟨Instant.on d t, some stop, none⟩), g') := by
  obtain ⟨v, hspells, hstart⟩ := exists_value_momentLiteral hregistry hyear hwhole
  refine ⟨fun complete => ?_, ?_, fun stop text g g' hstop => ?_⟩
  · have hliterals := Section.ofText_time_and_date hwhole (isTerm_timeLiteral hregistry hwhole)
      (isTerm_dateLiteral hregistry hyear) complete
    refine ⟨hliterals.1, hliterals.2, ?_, fun hminute => ?_⟩
    · rw [(isTerm_momentLiteral hregistry hyear hwhole).ofText_eq]
      cases complete <;> rfl
    · exact Section.ofText_time_and_date hwhole (isTerm_timeCall hregistry hminute)
        (isTerm_dateCall hregistry hyear) complete
  · exact (isTerm_between_start hregistry hspells (hstart false)).ofText_eq false
  · exact run_ofText_between_start_end hregistry hspells (hstart false) hstop

/-- Half past ten in the morning of the second of January 2025. -/
theorem moment_however_written_half_past_ten :
    let ctx : Context := { registry := .defaults, now := .midnight 0 (by decide) }
    let d : Date := ⟨20090, by decide, by decide⟩
    let t : TimeOfDay := ⟨37800, 0, by decide, by decide, by decide⟩
    let moment : Reduction SpecError Section := pure (.moment (Instant.on d t))
    Section.ofText ctx true ("iso8601(type: time, specification: 10:30:00) & " ++
        "iso8601(type: date, specification: 2025-01-02)") = moment ∧
      Section.ofText ctx true "iso8601(type: datetime, specification: 2025-01-02T10:30:00)" =
        moment ∧
      Section.ofText ctx true "date(year: 2025, month: 1, day: 2) & time(hour: 10, minute: 30)" =
        moment ∧
      ∀ g, (Section.ofText ctx false ("between(start: " ++
          "iso8601(type: datetime, specification: 2025-01-02T10:30:00), end: " ++
          "iso8601(type: datetime, specification: 2025-01-02T10:30:00))")).run g =
        .ok (.ok (.recurrence ⟨Instant.on d t, some (.moment (Instant.on d t)), none⟩), g) := by
  intro ctx d t moment
  have hyear : 0 ≤ d.year ∧ d.year ≤ 9999 := by decide +kernel
  have hregistry : ctx.registry = .defaults := rfl
  obtain ⟨v, hspells, hnamed⟩ := exists_value_momentLiteral hregistry hyear (rfl : t.nano = 0)
  obtain ⟨hmoment, -, hbetween⟩ := moment_however_written hregistry hyear (rfl : t.nano = 0)
  obtain ⟨hliterals, -, hliteral, hcalls⟩ := hmoment true
  have htime : timeLiteral t = "iso8601(type: time, specification: 10:30:00)" := by decide +kernel
  have hdate : dateLiteral d = "iso8601(type: date, specification: 2025-01-02)" := by
    decide +kernel
  have htext : momentLiteral d t =
      "iso8601(type: datetime, specification: 2025-01-02T10:30:00)" := by
    decide +kernel
  have htimeCall : timeCall t = "time(hour: 10, minute: 30)" := by decide +kernel
  have hdateCall : dateCall d = "date(year: 2025, month: 1, day: 2)" := by decide +kernel
  have hcall := (hcalls (by decide)).2
  have hstretch : "between(start: " ++ momentLiteral d t ++ ", end: " ++ momentLiteral d t ++ ")" =
      "between(start: " ++ "iso8601(type: datetime, specification: 2025-01-02T10:30:00), end: " ++
        "iso8601(type: datetime, specification: 2025-01-02T10:30:00))" := by
    decide +kernel
  rw [htime, hdate] at hliterals
  rw [htimeCall, hdateCall] at hcall
  rw [htext] at hliteral
  refine ⟨hliterals, hliteral, hcall, fun g => ?_⟩
  rw [← hstretch]
  exact hbetween _ _ g g ⟨v, hspells, by rw [hnamed true, run_pure]⟩

end Almanac

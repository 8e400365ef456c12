import Almanac.Proofs.Expression.Calls
import Almanac.Proofs.Expression.Progress
import Almanac.Proofs.Reduction.Accepted

/-!
What is built of accepted arguments. Where every argument of a call in a text is accepted only three
things are refused, and the sets of a filter and of days of the week are what is written, no more
and no less.
-/

namespace Almanac

open Calendar Expression Occurrence

/-- The problems that a call of that name has although each of its arguments is accepted. -/
inductive IsRefused (name : String) (args : List (String × Value)) :
    List ArgumentProblem → Prop where
  /-- Seconds that lead to no moment. -/
  | epoch {value : Value} {seconds : Binary64} (hname : name = "epoch")
      (hvalue : Keyed.get? args "epoch" = some value) (hseconds : numberOf value = .ok seconds)
      (hnone : epochInstant? seconds = none) :
      IsRefused name args [("epoch", .notRepresentable seconds)]
  /-- Numbers that are no date of the calendar. -/
  | date {year month day : Value} {y : Int} {m d : Nat} (hname : name = "date")
      (hyear : Keyed.get? args "year" = some year) (hy : integerOf year = .ok y)
      (hmonth : Keyed.get? args "month" = some month) (hm : integerOf month = .ok m)
      (hday : Keyed.get? args "day" = some day) (hd : integerOf day = .ok d)
      (hnone : Date.ofNumbers? y m d = none) : IsRefused name args [("day", .notDate y m d)]
  /-- A text that is no literal of its kind. -/
  | literal {type specification : Value} {kind : Literal.Kind} {written : String}
      {fault : Literal.Fault} (hname : name = "iso8601")
      (htype : Keyed.get? args "type" = some type) (hkind : textOf type = .ok kind.name)
      (hspecification : Keyed.get? args "specification" = some specification)
      (hwritten : textOf specification = .ok written)
      (hfault : Literal.read kind written.toList = .error fault) :
      IsRefused name args [("specification", .nested (.badLiteral kind written fault))]

/-- The items that are written for an argument; none if it is left out. -/
def itemsWritten (args : List (String × Value)) (key : String) : List String :=
  ((Keyed.get? args key).bind fun value => (itemsOf value).toOption).getD []

/-- The members of the set are what the items are read as: no item is lost and nothing is added. -/
structure SortedSet.StandsFor {α : Type} [Ranked α] (s : SortedSet α) (reads : String → α → Prop)
    (items : List String) : Prop where
  each_item : ∀ item ∈ items, ∃ a ∈ s, reads item a
  each_member : ∀ a ∈ s, ∃ item ∈ items, reads item a

def ReadsNumber (item : String) (n : Nat) : Prop :=
  integerOf (.text item) = .ok (n : Int)

def ReadsWeekday (item : String) (day : Weekday) : Prop :=
  day.name = item

/-- The sets of numbers that a filter consists of, under the names of their arguments. -/
def Filter.numberSets (f : Filter) : List (String × SortedSet Nat) :=
  [("minutes", f.minutes), ("hours", f.hours), ("days", f.days), ("weeks", f.weeks),
    ("months", f.months), ("day_numbers", f.yearDays)]

/-- The sets of a section hold what is written for them. -/
def Section.HoldsWritten (args : List (String × Value)) : Section → Prop
  | .filter f =>
    (∀ entry ∈ f.numberSets, entry.2.StandsFor ReadsNumber (itemsWritten args entry.1)) ∧
      f.weekdays.StandsFor ReadsWeekday (itemsWritten args "day_names")
  | .weekdays days => days.StandsFor ReadsWeekday (itemsWritten args "name")
  | _ => True

theorem Literal.Kind.eq_of_name_eq {kind other : Kind} (h : kind.name = other.name) :
    kind = other := by
  have hother := ofName?_name other
  rw [← h, ofName?_name] at hother
  exact Option.some.inj hother

theorem Calendar.Weekday.name_of_ofName?_eq_some {text : String} {day : Weekday}
    (h : ofName? text = some day) : day.name = text := by
  simpa using List.find?_some h

section Refusals

variable {args : List (String × Value)}

theorem IsRefused.name_mem {name : String} {problems : List ArgumentProblem}
    (h : IsRefused name args problems) :
    name ∈ ["epoch", "date", "iso8601"] := by
  cases h <;> simp [*]

theorem isRefused_epoch_iff {value : Value} {seconds : Binary64}
    (hvalue : Keyed.get? args "epoch" = some value) (hseconds : numberOf value = .ok seconds)
    (problems : List ArgumentProblem) :
    IsRefused "epoch" args problems ↔
      epochInstant? seconds = none ∧ problems = [("epoch", .notRepresentable seconds)] := by
  constructor
  · intro h
    cases h with
    | epoch _ hvalue' hseconds' hnone =>
      cases hvalue.symm.trans hvalue'
      cases hseconds.symm.trans hseconds'
      exact ⟨hnone, rfl⟩
    | date hname | literal hname => exact absurd hname (by decide)
  · rintro ⟨hnone, rfl⟩
    exact .epoch rfl hvalue hseconds hnone

theorem isRefused_date_iff {year month day : Value} {y : Int} {m d : Nat}
    (hyear : Keyed.get? args "year" = some year) (hy : integerOf year = .ok y)
    (hmonth : Keyed.get? args "month" = some month) (hm : integerOf month = .ok (m : Int))
    (hday : Keyed.get? args "day" = some day) (hd : integerOf day = .ok (d : Int))
    (problems : List ArgumentProblem) :
    IsRefused "date" args problems ↔
      Date.ofNumbers? y m d = none ∧ problems = [("day", .notDate y m d)] := by
  constructor
  · intro h
    cases h with
    | date _ hyear' hy' hmonth' hm' hday' hd' hnone =>
      cases hyear.symm.trans hyear'
      cases hmonth.symm.trans hmonth'
      cases hday.symm.trans hday'
      cases hy.symm.trans hy'
      cases hm.symm.trans hm'
      cases hd.symm.trans hd'
      exact ⟨hnone, rfl⟩
    | epoch hname | literal hname => exact absurd hname (by decide)
  · rintro ⟨hnone, rfl⟩
    exact .date rfl hyear hy hmonth hm hday hd hnone

theorem isRefused_literal_iff {type specification : Value} {kind : Literal.Kind}
    {written : String} (htype : Keyed.get? args "type" = some type)
    (hkind : textOf type = .ok kind.name)
    (hspecification : Keyed.get? args "specification" = some specification)
    (hwritten : textOf specification = .ok written) (problems : List ArgumentProblem) :
    IsRefused "iso8601" args problems ↔
      ∃ fault, Literal.read kind written.toList = .error fault ∧
        problems = [("specification", .nested (.badLiteral kind written fault))] := by
  constructor
  · intro h
    cases h with
    | literal _ htype' hkind' hspecification' hwritten' hfault =>
      cases htype.symm.trans htype'
      cases hspecification.symm.trans hspecification'
      cases hwritten.symm.trans hwritten'
      obtain rfl := Literal.Kind.eq_of_name_eq (Except.ok.inj (hkind.symm.trans hkind'))
      exact ⟨_, hfault, rfl⟩
    | epoch hname | date hname => exact absurd hname (by decide)
  · rintro ⟨fault, hfault, rfl⟩
    exact .literal rfl htype hkind hspecification hwritten hfault

end Refusals

theorem exists_mem_right_of_forall₂ {α β : Type} {r : α → β → Prop} {as : List α} {bs : List β}
    (h : List.Forall₂ r as bs) {a : α} (ha : a ∈ as) : ∃ b ∈ bs, r a b := by
  induction h with
  | nil => cases ha
  | cons hfirst _ ih =>
    rcases List.mem_cons.1 ha with rfl | ha
    · exact ⟨_, List.mem_cons_self .., hfirst⟩
    · obtain ⟨b, hb, hr⟩ := ih ha
      exact ⟨b, List.mem_cons_of_mem _ hb, hr⟩

namespace SortedSet.StandsFor

/-- A list of numbers that has been checked stands for its items, as no number is too large to be
one of the set. -/
theorem of_numbers {items : List String} {numbers : List Int} {lower upper : Int}
    (hlower : 0 ≤ lower) (hupper : upper < Text.word32)
    (h : List.Forall₂ (fun item n => integerOf (.text item) = .ok n ∧
      (Bounds.within lower upper).contains n = true) items numbers) :
    StandsFor (SortedSet.ofList (numbers.filterMap FieldValue.countOf?)) ReadsNumber items where
  each_item item hitem := by
    obtain ⟨n, hn, hread, hbounds⟩ := exists_mem_right_of_forall₂ h hitem
    obtain ⟨count, rfl, hword⟩ := Bounds.exists_natCast_of_contains hlower hupper hbounds
    exact ⟨count, SortedSet.mem_ofList.2 (List.mem_filterMap.2
      ⟨_, hn, FieldValue.countOf?_natCast hword⟩), hread⟩
  each_member count hmem := by
    obtain ⟨n, hn, hcount⟩ := List.mem_filterMap.1 (SortedSet.mem_ofList.1 hmem)
    obtain ⟨item, hitem, hread, -⟩ := exists_mem_right_of_forall₂ h.flip hn
    obtain rfl := FieldValue.countOf?_eq_some hcount
    exact ⟨item, hitem, hread⟩

/-- A list of names of days stands for its items, as each is the name of a day. -/
theorem of_weekdays {items : List String} (h : ∀ item ∈ items, item ∈ Weekday.names) :
    StandsFor (Schema.weekdaysOf items) ReadsWeekday items where
  each_item item hitem := by
    obtain ⟨day, -, rfl⟩ := List.mem_map.1 (h item hitem)
    exact ⟨day, SortedSet.mem_ofList.2 (List.mem_filterMap.2 ⟨_, hitem, day.ofName?_name⟩), rfl⟩
  each_member day hmem := by
    obtain ⟨item, hitem, hname⟩ := List.mem_filterMap.1 (SortedSet.mem_ofList.1 hmem)
    exact ⟨item, hitem, Weekday.name_of_ofName?_eq_some hname⟩

theorem of_nil {α : Type} [Ranked α] (reads : String → α → Prop) :
    StandsFor (SortedSet.ofList []) reads [] :=
  ⟨nofun, nofun⟩

end SortedSet.StandsFor

section Items

variable {args : List (String × Value)} {key : String}

theorem itemsWritten_eq {value : Value} {items : List String}
    (hvalue : Keyed.get? args key = some value) (hitems : itemsOf value = .ok items) :
    itemsWritten args key = items := by
  rw [itemsWritten, hvalue, Option.bind_some, hitems]
  rfl

theorem itemsWritten_eq_nil (hnone : Keyed.get? args key = none) : itemsWritten args key = [] := by
  rw [itemsWritten, hnone]
  rfl

end Items

namespace Schema

variable {schema : Schema} {args : List (String × Value)} {f : Fields} {name : String}
  {lower upper : Int}

theorem Filled.standsFor_counts (h : schema.Filled args f)
    (hfield : .may name (.integersWithin (.within lower upper)) ∈ schema.fields)
    (hlower : 0 ≤ lower) (hupper : upper < Text.word32) :
    (SortedSet.ofList (f.counts name)).StandsFor ReadsNumber (itemsWritten args name) := by
  rcases h.may hfield with ⟨value, v, hvalue, hv, htakes⟩ | ⟨hnone, hv⟩
  · cases htakes with
    | integersWithin hitems hnumbers =>
      rw [itemsWritten_eq hvalue hitems, Fields.counts, hv]
      exact .of_numbers hlower hupper hnumbers
  · rw [itemsWritten_eq_nil hnone, Fields.counts, hv]
    exact .of_nil ReadsNumber

theorem Filled.standsFor_weekdays (h : schema.Filled args f)
    (hfield : .may name (.choices Weekday.names) ∈ schema.fields) :
    (weekdaysOf ((f.view? FieldValue.texts? name).getD [])).StandsFor ReadsWeekday
      (itemsWritten args name) := by
  rcases h.may hfield with ⟨value, v, hvalue, hv, htakes⟩ | ⟨hnone, hv⟩
  · cases htakes with
    | choices hitems hmem =>
      rw [itemsWritten_eq hvalue hitems, Fields.view?, hv]
      exact .of_weekdays hmem
  · rw [itemsWritten_eq_nil hnone, Fields.view?, hv]
    exact .of_nil ReadsWeekday

/-- What a call of that name makes is refused as it should be, and holds what is written. -/
structure IsExactly (name : String) (args : List (String × Value)) (built : Built) : Prop where
  error_iff : ∀ problems, built = .error problems ↔ IsRefused name args problems
  holds : ∀ s, built = .ok s → s.HoldsWritten args

theorem isExactly_ok {s : Section} (h : ∀ problems, ¬ IsRefused name args problems)
    (hs : s.HoldsWritten args) : IsExactly name args (.ok s) where
  error_iff problems := iff_of_false (fun h => nomatch h) (h problems)
  holds
    | _, rfl => hs

theorem isExactly_refuse {field : String} {reason : Reason}
    (h : ∀ problems, IsRefused name args problems ↔ problems = [(field, reason)]) :
    IsExactly name args (refuse field reason) where
  error_iff problems := by rw [h, refuse, Except.error.injEq, eq_comm]
  holds _ hs := nomatch hs

/-- From accepted arguments, no list of which is empty. -/
def IsExact (schema : Schema) (name : String) : Prop :=
  ∀ args f, (∀ argument ∈ args, itemsOf argument.2 ≠ .ok []) → schema.Filled args f →
    IsExactly name args (schema.build f)

theorem isExact_of_builds (hname : name ∉ ["epoch", "date", "iso8601"])
    (h : ∀ args f, (∀ argument ∈ args, itemsOf argument.2 ≠ .ok []) → schema.Filled args f →
      ∃ s, schema.build f = .ok s ∧ s.HoldsWritten args) : schema.IsExact name := by
  intro args f hlists hfilled
  obtain ⟨s, hbuild, hs⟩ := h args f hlists hfilled
  rw [hbuild]
  exact isExactly_ok (fun problems hrefused => hname hrefused.name_mem) hs

theorem isExact_recurrence : recurrence.IsExact "repeat" := by
  refine isExact_of_builds (by decide) fun args f _ hfilled => ?_
  obtain ⟨start, hstart⟩ := hfilled.exists_start (.head _)
  refine ⟨.recurrence ⟨start, f.view? FieldValue.bound? "end",
    (f.view? FieldValue.section? "every").bind intervalsOf?⟩, ?_, trivial⟩
  simp only [recurrence, hstart, bind, Except.bind]

theorem isExact_filter : filter.IsExact "filter" := by
  refine isExact_of_builds (by decide) fun args f _ hfilled => ?_
  refine ⟨_, rfl, ?_, hfilled.standsFor_weekdays (by simp [filter])⟩
  have hstands (name : String) (lower upper : Int)
      (hfield : .may name (.integersWithin (.within lower upper)) ∈ filter.fields)
      (hbounds : 0 ≤ lower ∧ upper < Text.word32) :=
    hfilled.standsFor_counts hfield hbounds.1 hbounds.2
  simp only [Filter.numberSets, List.forall_mem_cons, List.not_mem_nil, false_imp_iff,
    implies_true, and_true]
  exact ⟨hstands "minutes" 0 59 (by simp [filter]) (by decide),
    hstands "hours" 0 23 (by simp [filter]) (by decide),
    hstands "days" 1 31 (by simp [filter]) (by decide),
    hstands "weeks" 1 53 (by simp [filter]) (by decide),
    hstands "months" 1 12 (by simp [filter]) (by decide),
    hstands "day_numbers" 1 366 (by simp [filter]) (by decide)⟩

theorem isExact_constant {s : Section} (hname : name ∉ ["epoch", "date", "iso8601"])
    (hs : ∀ args, s.HoldsWritten args) : (constant s).IsExact name :=
  isExact_of_builds hname fun args _ _ _ => ⟨s, rfl, hs args⟩

theorem isExact_epoch : epoch.IsExact "epoch" := by
  intro args f _ hfilled
  obtain ⟨value, seconds, hvalue, hseconds, hrequire⟩ := hfilled.exists_number (.head _)
  have hiff := isRefused_epoch_iff hvalue hseconds
  simp only [epoch, hrequire, bind, Except.bind]
  cases hinstant : epochInstant? seconds with
  | none => exact isExactly_refuse fun problems => by simp [hiff, hinstant]
  | some i => exact isExactly_ok (fun problems => by simp [hiff, hinstant]) trivial

theorem isExact_amount : amount.IsExact "amount" := by
  refine isExact_of_builds (by decide) fun args f _ hfilled => ?_
  obtain ⟨n, hnum⟩ := hfilled.exists_natural (.head _)
  obtain ⟨_, unitName, -, -, hunit, hsize⟩ := hfilled.exists_choice (.tail _ (.head _))
  obtain ⟨unit, -, rfl⟩ := List.mem_map.1 hunit
  exact ⟨_, build_amount hnum hsize, trivial⟩

theorem isExact_range : range.IsExact "range" := by
  refine isExact_of_builds (by decide) fun args f _ hfilled => ?_
  obtain ⟨low, hmin⟩ := hfilled.exists_amount (.head _)
  obtain ⟨high, hmax⟩ := hfilled.exists_amount (.tail _ (.head _))
  exact ⟨_, build_range hmin hmax, trivial⟩

theorem isExact_interval : interval.IsExact "interval" := by
  refine isExact_of_builds (by decide) fun args f _ hfilled => ?_
  obtain ⟨s, hkind, hevery⟩ := hfilled.exists_section (.head _)
  cases s <;> simp [Section.kind] at hkind
  · exact ⟨_, build_interval_amount hevery, trivial⟩
  · exact ⟨_, build_interval_duration hevery, trivial⟩

theorem isExact_between : between.IsExact "between" := by
  refine isExact_of_builds (by decide) fun args f _ hfilled => ?_
  obtain ⟨start, hstart⟩ := hfilled.exists_start (.head _)
  refine ⟨.between start (f.view? FieldValue.bound? "end"), ?_, trivial⟩
  simp only [between, hstart, bind, Except.bind]

/-- As no list is empty, neither are the days that are made of one. -/
theorem isExact_weekdays : weekdays.IsExact "day_name" := by
  refine isExact_of_builds (by decide) fun args f hlists hfilled => ?_
  obtain ⟨value, v, hvalue, hv, htakes⟩ := hfilled.must (.head _)
  cases htakes with
  | @choices _ _ items hitems hmem =>
    have hstands := SortedSet.StandsFor.of_weekdays hmem
    have hsome : (weekdaysOf items).isEmpty = false := by
      cases items with
      | nil => exact absurd hitems (hlists _ (Keyed.mem_of_get?_eq_some hvalue))
      | cons item rest =>
        obtain ⟨day, hday, -⟩ := hstands.each_item item (List.mem_cons_self ..)
        exact List.isEmpty_eq_false_iff.2 (List.ne_nil_of_mem hday)
    refine ⟨_, build_weekdays_names hsome hv, ?_⟩
    rw [Section.HoldsWritten, itemsWritten_eq hvalue hitems]
    exact hstands

theorem isExact_yearDay : yearDay.IsExact "day_number" := by
  refine isExact_of_builds (by decide) fun args f _ hfilled => ?_
  obtain ⟨_, number, -, -, hnumber⟩ := hfilled.exists_count (.head _) (by decide) (by decide)
  refine ⟨.yearDay number, ?_, trivial⟩
  simp only [yearDay, hnumber, bind, Except.bind]

theorem isExact_time : time.IsExact "time" := by
  refine isExact_of_builds (by decide) fun args f _ hfilled => ?_
  obtain ⟨_, hour, -, -, hhour⟩ := hfilled.exists_count (.head _) (by decide) (by decide)
  obtain ⟨_, minute, -, -, hminute⟩ :=
    hfilled.exists_count (.tail _ (.head _)) (by decide) (by decide)
  refine ⟨.time ⟨hour, minute, 0⟩, ?_, trivial⟩
  simp only [time, hhour, hminute, bind, Except.bind]

theorem isExact_date : date.IsExact "date" := by
  intro args f _ hfilled
  obtain ⟨_, year, hyear, hy, hrequireYear⟩ := hfilled.exists_integer (.head _)
  obtain ⟨_, month, hmonth, hm, hrequireMonth⟩ :=
    hfilled.exists_count (.tail _ (.head _)) (by decide) (by decide)
  obtain ⟨_, day, hday, hd, hrequireDay⟩ :=
    hfilled.exists_count (.tail _ (.tail _ (.head _))) (by decide) (by decide)
  have hiff := isRefused_date_iff hyear hy hmonth hm hday hd
  simp only [date, hrequireYear, hrequireMonth, hrequireDay, bind, Except.bind]
  cases hdate : Date.ofNumbers? year month day with
  | none => exact isExactly_refuse fun problems => by simp [hiff, hdate]
  | some d => exact isExactly_ok (fun problems => by simp [hiff, hdate]) trivial

theorem isExact_literal : literal.IsExact "iso8601" := by
  intro args f _ hfilled
  obtain ⟨_, kindName, htype, hkind, hmem, hrequireType⟩ := hfilled.exists_choice (.head _)
  obtain ⟨_, written, hspecification, hwritten, hrequire⟩ :=
    hfilled.exists_text (.tail _ (.head _))
  obtain ⟨kind, -, rfl⟩ := List.mem_map.1 hmem
  have hrequireType : require f FieldValue.text? "type" = .ok kind.name :=
    require_eq_ok_of_get? hrequireType rfl
  have hiff := isRefused_literal_iff htype hkind hspecification hwritten
  simp only [literal, hrequireType, hrequire, bind, Except.bind, Literal.Kind.ofName?_name,
    WrittenLiteral.read]
  cases hread : Literal.read kind written.toList with
  | error fault => exact isExactly_refuse fun problems => by simp [hiff, hread]
  | ok v => exact isExactly_ok (fun problems => by simp [hiff, hread]) trivial

theorem isDistinct_of_mem_defaults {schema : Schema} (h : (name, schema) ∈ defaults) :
    schema.IsDistinct := by
  have hall : ∀ entry ∈ defaults, entry.2.IsDistinct := by decide
  exact hall _ h

theorem isExact_of_mem_defaults {schema : Schema} (h : (name, schema) ∈ defaults) :
    schema.IsExact name := by
  simp only [defaults, List.mem_cons, List.not_mem_nil, or_false, Prod.mk.injEq] at h
  rcases h with ⟨rfl, rfl⟩ | ⟨rfl, rfl⟩ | ⟨rfl, rfl⟩ | ⟨rfl, rfl⟩ | ⟨rfl, rfl⟩ | ⟨rfl, rfl⟩ |
    ⟨rfl, rfl⟩ | ⟨rfl, rfl⟩ | ⟨rfl, rfl⟩ | ⟨rfl, rfl⟩ | ⟨rfl, rfl⟩ | ⟨rfl, rfl⟩ | ⟨rfl, rfl⟩ |
    ⟨rfl, rfl⟩ | ⟨rfl, rfl⟩ | ⟨rfl, rfl⟩
  exacts [isExact_recurrence, isExact_filter, isExact_constant (by decide) fun _ => trivial,
    isExact_constant (by decide) fun _ => trivial, isExact_constant (by decide) fun _ => trivial,
    isExact_constant (by decide) fun _ => trivial, isExact_epoch, isExact_amount, isExact_range,
    isExact_interval, isExact_between, isExact_weekdays, isExact_yearDay, isExact_time,
    isExact_date, isExact_literal]

end Schema

namespace Expression

/-- No list among the arguments is empty. -/
def Phrase.ListsItems : Phrase → Prop
  | .call _ args | .arguments args => ∀ argument ∈ args, itemsOf argument.2 ≠ .ok []
  | .argument _ v | .value v => itemsOf v ≠ .ok []
  | .term _ _ | .chain _ _ => True

theorem itemsOf_ofToken_ne_nil (token : List Char) : itemsOf (.ofToken token) ≠ .ok [] := by
  unfold Value.ofToken
  split
  case isTrue =>
    intro h
    exact Text.split_ne_nil ';' token (List.map_eq_nil_iff.1 (Except.ok.inj h))
  case isFalse => split <;> [skip; split <;> [skip; split]] <;> nofun

theorem listsItems_of_spells {w : List Char} {phrase : Phrase} (h : Spells w phrase) :
    phrase.ListsItems := by
  induction h with
  | emptyCall => exact nofun
  | call _ _ _ _ _ _ ih => exact fun argument hmem => ih argument (Keyed.mem_of_mem_ofList hmem)
  | firstArgument _ ih => exact List.forall_mem_singleton.2 ih
  | furtherArgument _ _ _ _ ihargs ih =>
    exact List.forall_mem_append.2 ⟨ihargs, List.forall_mem_singleton.2 ih⟩
  | argument _ _ _ _ ih => exact ih
  | nested => exact nofun
  | token => exact itemsOf_ofToken_ne_nil _
  | term | parentheses | single | join => trivial

theorem isSorted_of_spells_call {w : List Char} {name : String} {args : List (String × Value)}
    (h : Spells w (.call name args)) : Keyed.IsSorted args := by
  cases h with
  | emptyCall => exact List.Pairwise.nil
  | call => exact Keyed.isSorted_ofList _

end Expression

/-- Of the accepted arguments of a call in a text its schema makes the section that its name stands
for, and the sets of that section are what is written. Only seconds that lead to no moment, numbers
that are no date and texts that are no literals are refused. -/
theorem Schema.build_of_accepted {text : String} {tree : Tree} (hread : read text = .ok tree)
    {name : String} {args : List (String × Value)} (hcall : (name, args) ∈ tree.calls)
    {schema : Schema} (hschema : (name, schema) ∈ defaults) {ctx : Context} {g g' : Generator}
    {outcomes : List FieldOutcome}
    (hturns : Turns ctx (ctx.arguments args) schema.fields g outcomes g')
    (hnone : ¬ ∃ problem, schema.IsProblem ctx args g problem) :
    (∀ problems, schema.build (fieldValues outcomes) = .error problems ↔
      IsRefused name args problems) ∧
    ∀ s, schema.build (fieldValues outcomes) = .ok s →
      (name, s.kind) ∈ kinds ∧ s.HoldsWritten args := by
  obtain ⟨before, w, after, -, -, -, hspells⟩ := isExpression_of_read_eq_ok hread
  obtain ⟨u, hu⟩ := exists_spells_of_mem_calls hspells hcall
  have hfilled := filled_of_not_isProblem (isDistinct_of_mem_defaults hschema)
    (isSorted_of_spells_call hu).nodup_keys hturns hnone
  have hexact := isExact_of_mem_defaults hschema args _ (listsItems_of_spells hu) hfilled
  obtain ⟨kind, hkind, hmakes⟩ := exists_makes_of_mem_defaults hschema
  refine ⟨hexact.error_iff, fun s hs => ⟨?_, hexact.holds s hs⟩⟩
  rwa [hmakes _ s hs]

/-- A filter that is built, and a date that is refused. -/
theorem Schema.build_of_accepted_filter_or_date :
    let ctx : Context := { registry := .defaults, now := .midnight 0 (by decide) }
    let hours : List (String × Value) := [("day_names", .text "mon"), ("hours", .list ["9", "17"])]
    let day : List (String × Value) := [("day", .integer 30), ("month", .integer 2),
      ("year", .integer 2025)]
    ∃ tree, read "filter(hours:9;17,day_names:mon)|date(year:2025,month:2,day:30)" = .ok tree ∧
      ("filter", hours) ∈ tree.calls ∧ ("date", day) ∈ tree.calls ∧
      (∃ outcomes s, Turns ctx (ctx.arguments hours) filter.fields .least outcomes .least ∧
        filter.build (fieldValues outcomes) = .ok s ∧ s.kind = .filter ∧ s.HoldsWritten hours) ∧
      IsRefused "date" day [("day", .notDate 2025 2 30)] := by
  intro ctx hours day
  have hread : read "filter(hours:9;17,day_names:mon)|date(year:2025,month:2,day:30)" =
      .ok (.join .or (.call "filter" hours ⟨0, 32⟩) (.call "date" day ⟨33, 63⟩)) := by rfl
  have hfilterRun : (checkFields ctx (ctx.arguments hours) filter.fields :
      Reduction SpecError _).run .least = .ok (.ok [("minutes", .ok none),
        ("hours", .ok (some (.integers [9, 17]))), ("days", .ok none), ("weeks", .ok none),
        ("months", .ok none), ("day_names", .ok (some (.texts ["mon"]))),
        ("day_numbers", .ok none)], .least) := by rfl
  have hdateRun : (checkFields ctx (ctx.arguments day) date.fields :
      Reduction SpecError _).run .least = .ok (.ok [("year", .ok (some (.integer 2025))),
        ("month", .ok (some (.integer 2))), ("day", .ok (some (.integer 30)))], .least) := by rfl
  obtain ⟨_, ⟨⟩, hfilterTurns⟩ := run_checkFields_eq_ok_iff.1 hfilterRun
  obtain ⟨_, ⟨⟩, hdateTurns⟩ := run_checkFields_eq_ok_iff.1 hdateRun
  have hfilter : ¬ ∃ problem, filter.IsProblem ctx hours .least problem :=
    (problems_eq_nil_iff (by decide) hfilterTurns).1 (by rfl)
  have hdate : ¬ ∃ problem, date.IsProblem ctx day .least problem :=
    (problems_eq_nil_iff (by decide) hdateTurns).1 (by rfl)
  have hmem : ("filter", hours) ∈ [("filter", hours), ("date", day)] := List.mem_cons_self ..
  have hmem' : ("date", day) ∈ [("filter", hours), ("date", day)] := by simp
  obtain ⟨herror, hholds⟩ :=
    Schema.build_of_accepted hread hmem (by simp [defaults]) hfilterTurns hfilter
  obtain ⟨hrefused, -⟩ :=
    Schema.build_of_accepted hread hmem' (by simp [defaults]) hdateTurns hdate
  exact ⟨_, hread, hmem, hmem', ⟨_, _, hfilterTurns, rfl, rfl, (hholds _ rfl).2⟩,
    (hrefused _).1 rfl⟩

end Almanac

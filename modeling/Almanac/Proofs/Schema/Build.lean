import Almanac.Proofs.Filter
import Almanac.Proofs.Schema.Default

/-!
Which section a schema builds, and from which values of its fields. Every schema builds sections of
one variant only.
-/

namespace Almanac

namespace Literal

variable {kind : Kind}

theorem Kind.name_of_ofName?_eq_some {text : String} (h : ofName? text = some kind) :
    kind.name = text := by
  simpa using List.find?_some h

theorem kind_of_read_eq_ok {text : List Char} {v : Value} (h : read kind text = .ok v) :
    v.kind = kind := by
  cases kind <;> obtain ⟨_, -, rfl⟩ := exists_of_map_eq_ok h <;> rfl

end Literal

/-- A literal that has been read is the text and what it has been read as. -/
theorem WrittenLiteral.read_eq_ok {kind : Literal.Kind} {written : String} {l : WrittenLiteral}
    (h : WrittenLiteral.read kind written = .ok l) : l.kind = kind ∧ l.written = written := by
  unfold WrittenLiteral.read at h
  split at h
  case h_1 v hread =>
    cases h
    exact ⟨Literal.kind_of_read_eq_ok hread, rfl⟩
  case h_2 => cases h

namespace FieldValue

variable {n : Nat}

theorem countOf?_natCast (h : n < Text.word32) : countOf? n = some n := by
  unfold countOf?
  rw [if_pos ⟨Int.natCast_nonneg n, by omega⟩, Int.toNat_natCast]

theorem count?_integer (h : n < Text.word32) : (integer n).count? = some n := by
  rw [count?, integer?, Option.bind_some, countOf?_natCast h]

theorem counts_integers {numbers : List Nat} (h : ∀ n ∈ numbers, n < Text.word32) :
    (integers (numbers.map Nat.cast)).counts = numbers := by
  change (numbers.map Nat.cast).filterMap countOf? = numbers
  rw [List.filterMap_map]
  refine (List.filterMap_congr fun n hn => ?_).trans List.filterMap_some
  rw [Function.comp_apply, countOf?_natCast (h n hn)]

end FieldValue

namespace Schema

open Calendar Period Occurrence

variable {f : Fields} {s : Section} {name : String}

theorem requireAmount_eq_ok {a : Amount} (h : requireAmount f name = .ok a) :
    f.get? name = some (.subsection (.amount a)) := by
  unfold requireAmount Fields.view? at h
  split at h
  case h_1 b hview =>
    cases h
    obtain ⟨v, hv, hsection⟩ := Option.bind_eq_some_iff.1 hview
    cases v with
    | subsection s => cases hsection; exact hv
    | _ => cases hsection
  case h_2 => cases h

theorem requireText_eq_ok {text : String} (h : require f FieldValue.text? name = .ok text) :
    f.get? name = some (.text text) := by
  obtain ⟨v, hv, htext⟩ := require_eq_ok h
  cases v with
  | text s => cases htext; exact hv
  | _ => cases htext

theorem requireInteger_eq_ok {n : Int} (h : require f FieldValue.integer? name = .ok n) :
    f.get? name = some (.integer n) := by
  obtain ⟨v, hv, hinteger⟩ := require_eq_ok h
  cases v with
  | integer n => cases hinteger; exact hv
  | _ => cases hinteger

theorem build_amount_eq_ok (h : amount.build f = .ok s) :
    ∃ n unit, f.get? "num" = some (.integer n) ∧ 0 ≤ n ∧ s = .amount ⟨n.toNat, unit⟩ := by
  obtain ⟨n, hn, h⟩ := exists_of_bind_eq_ok h
  obtain ⟨name, -, h⟩ := exists_of_bind_eq_ok h
  split at h
  case h_1 => cases h
  case h_2 unit _ =>
    split at h <;> cases h
    exact ⟨n, unit, requireInteger_eq_ok hn, by omega, rfl⟩

theorem build_range_eq_ok (h : range.build f = .ok s) :
    ∃ low high, f.get? "min" = some (.subsection (.amount low)) ∧
      f.get? "max" = some (.subsection (.amount high)) ∧ s = .range low high := by
  obtain ⟨low, hlow, h⟩ := exists_of_bind_eq_ok h
  obtain ⟨high, hhigh, hs⟩ := exists_of_bind_eq_ok h
  cases hs
  exact ⟨low, high, requireAmount_eq_ok hlow, requireAmount_eq_ok hhigh, rfl⟩

theorem build_interval_eq_ok (h : interval.build f = .ok s) :
    (∃ a, f.get? "every" = some (.subsection (.amount a)) ∧ s = .interval (.amount a)) ∨
    ∃ d, f.get? "every" = some (.subsection (.duration d)) ∧ s = .interval (.duration d) := by
  have hvalue {p : Section} (hview : f.view? FieldValue.section? "every" = some p) :
      f.get? "every" = some (.subsection p) := by
    obtain ⟨v, hv, hsection⟩ := Option.bind_eq_some_iff.1 hview
    cases v with
    | subsection s => cases hsection; exact hv
    | _ => cases hsection
  simp only [interval] at h
  split at h
  case h_1 a hview => cases h; exact .inl ⟨a, hvalue hview, rfl⟩
  case h_2 d hview => cases h; exact .inr ⟨d, hvalue hview, rfl⟩
  case h_3 => cases h

theorem build_weekdays_eq_ok (h : weekdays.build f = .ok s) :
    ∃ days, days.isEmpty = false ∧ s = .weekdays days := by
  obtain ⟨names, -, hs⟩ := exists_of_bind_eq_ok h
  dsimp only at hs
  split at hs
  case isTrue => cases hs
  case isFalse hsome => cases hs; exact ⟨_, Bool.eq_false_iff.2 hsome, rfl⟩

theorem build_literal_eq_ok (h : literal.build f = .ok s) :
    ∃ l, f.get? "type" = some (.text l.kind.name) ∧
      f.get? "specification" = some (.text l.written) ∧
      WrittenLiteral.read l.kind l.written = .ok l ∧ s = .literal l := by
  obtain ⟨name, hname, h⟩ := exists_of_bind_eq_ok h
  split at h
  case h_1 => cases h
  case h_2 kind hkind =>
    obtain ⟨written, hwritten, h⟩ := exists_of_bind_eq_ok h
    split at h
    case h_1 l hread =>
      cases h
      obtain ⟨rfl, rfl⟩ := WrittenLiteral.read_eq_ok hread
      rw [← Literal.Kind.name_of_ofName?_eq_some hkind] at hname
      exact ⟨l, requireText_eq_ok hname, requireText_eq_ok hwritten, hread, rfl⟩
    case h_2 => cases h

theorem require_eq_ok_of_get? {α : Type} {view : FieldValue → Option α} {v : FieldValue} {a : α}
    (h : f.get? name = some v) (hview : view v = some a) : require f view name = .ok a := by
  unfold require Fields.view?
  rw [h, Option.bind_some, hview]

theorem build_amount {n : Nat} {unit : TimeUnit} (hnum : f.get? "num" = some (.integer n))
    (hsize : f.get? "size" = some (.text unit.name)) :
    amount.build f = .ok (.amount ⟨n, unit⟩) := by
  have hn : require f FieldValue.integer? "num" = .ok (n : Int) :=
    require_eq_ok_of_get? hnum rfl
  have hunit : require f FieldValue.text? "size" = .ok unit.name :=
    require_eq_ok_of_get? hsize rfl
  have hpos : ¬ (n : Int) < 0 := by omega
  simp only [amount, hn, hunit, bind, Except.bind, TimeUnit.ofName?_name, if_neg hpos,
    Int.toNat_natCast]

theorem requireAmount_of_get? {a : Amount} (h : f.get? name = some (.subsection (.amount a))) :
    requireAmount f name = .ok a := by
  unfold requireAmount Fields.view?
  rw [h]
  rfl

theorem build_range {low high : Amount} (hmin : f.get? "min" = some (.subsection (.amount low)))
    (hmax : f.get? "max" = some (.subsection (.amount high))) :
    range.build f = .ok (.range low high) := by
  simp only [range, requireAmount_of_get? hmin, requireAmount_of_get? hmax, bind, Except.bind]

theorem build_interval_amount {a : Amount}
    (hevery : f.get? "every" = some (.subsection (.amount a))) :
    interval.build f = .ok (.interval (.amount a)) := by
  simp only [interval, Fields.view?, hevery, Option.bind_some, FieldValue.section?]

theorem build_interval_duration {d : Duration}
    (hevery : f.get? "every" = some (.subsection (.duration d))) :
    interval.build f = .ok (.interval (.duration d)) := by
  simp only [interval, Fields.view?, hevery, Option.bind_some, FieldValue.section?]

theorem build_yearDay {n : Nat} (hword : n < Text.word32)
    (hnumber : f.get? "number" = some (.integer n)) : yearDay.build f = .ok (.yearDay n) := by
  have hn : require f FieldValue.count? "number" = .ok n :=
    require_eq_ok_of_get? hnumber (FieldValue.count?_integer hword)
  simp only [yearDay, hn, bind, Except.bind]

theorem build_time {hour minute : Nat} (hhour : hour < Text.word32) (hminute : minute < Text.word32)
    (hhourField : f.get? "hour" = some (.integer hour))
    (hminuteField : f.get? "minute" = some (.integer minute)) :
    time.build f = .ok (.time ⟨hour, minute, 0⟩) := by
  have hh : require f FieldValue.count? "hour" = .ok hour :=
    require_eq_ok_of_get? hhourField (FieldValue.count?_integer hhour)
  have hm : require f FieldValue.count? "minute" = .ok minute :=
    require_eq_ok_of_get? hminuteField (FieldValue.count?_integer hminute)
  simp only [time, hh, hm, bind, Except.bind]

theorem build_date {d : Date} (hyear : f.get? "year" = some (.integer d.year))
    (hmonth : f.get? "month" = some (.integer d.month))
    (hday : f.get? "day" = some (.integer d.dayOfMonth)) : date.build f = .ok (.date d) := by
  have hmonthWord : d.month < Text.word32 := d.month_bounds.2.trans_lt (by decide)
  have hdayWord : d.dayOfMonth < Text.word32 := d.dayOfMonth_bounds.2.trans_lt (by decide)
  have hy : require f FieldValue.integer? "year" = .ok d.year :=
    require_eq_ok_of_get? hyear rfl
  have hm : require f FieldValue.count? "month" = .ok d.month :=
    require_eq_ok_of_get? hmonth (FieldValue.count?_integer hmonthWord)
  have hd : require f FieldValue.count? "day" = .ok d.dayOfMonth :=
    require_eq_ok_of_get? hday (FieldValue.count?_integer hdayWord)
  simp only [date, hy, hm, hd, bind, Except.bind, d.ofNumbers?_eq_self]

theorem requireStart_of_get? {start : Instant}
    (h : f.get? "start" = some (.bound (.moment start))) : requireStart f = .ok start := by
  have hbound : require f FieldValue.bound? "start" = .ok (.moment start) :=
    require_eq_ok_of_get? h rfl
  unfold requireStart
  rw [hbound]
  rfl

theorem build_recurrence {start : Instant}
    (hstart : f.get? "start" = some (.bound (.moment start))) :
    recurrence.build f = .ok (.recurrence ⟨start, (f.get? "end").bind FieldValue.bound?,
      ((f.get? "every").bind FieldValue.section?).bind intervalsOf?⟩) := by
  simp only [recurrence, requireStart_of_get? hstart, bind, Except.bind, Fields.view?]

theorem build_between {start : Instant} (hstart : f.get? "start" = some (.bound (.moment start))) :
    between.build f = .ok (.between start ((f.get? "end").bind FieldValue.bound?)) := by
  simp only [between, requireStart_of_get? hstart, bind, Except.bind, Fields.view?]

theorem filterMap_ofName?_name (days : List Weekday) :
    (days.map Weekday.name).filterMap Weekday.ofName? = days := by
  rw [List.filterMap_map]
  refine (List.filterMap_congr fun day _ => ?_).trans List.filterMap_some
  exact day.ofName?_name

theorem weekdaysOf_names (days : List Weekday) :
    weekdaysOf (days.map Weekday.name) = .ofList days := by
  rw [weekdaysOf, filterMap_ofName?_name]

theorem build_weekdays_names {names : List String} (hsome : (weekdaysOf names).isEmpty = false)
    (hname : f.get? "name" = some (.texts names)) :
    weekdays.build f = .ok (.weekdays (weekdaysOf names)) := by
  have hnames : require f FieldValue.texts? "name" = .ok names := require_eq_ok_of_get? hname rfl
  simp only [weekdays, hnames, bind, Except.bind, hsome]
  rfl

theorem build_weekdays {days : SortedSet Weekday} (hsome : days.isEmpty = false)
    (hname : f.get? "name" = some (.texts (days.toList.map Weekday.name))) :
    weekdays.build f = .ok (.weekdays days) := by
  have hsame : weekdaysOf (days.toList.map Weekday.name) = days := by
    rw [weekdaysOf_names, SortedSet.ofList_toList]
  rw [build_weekdays_names (by rwa [hsame]) hname, hsame]

/-- What the schema builds is always of this variant. -/
def Makes (schema : Schema) (kind : Section.Kind) : Prop :=
  ∀ f s, schema.build f = .ok s → s.kind = kind

theorem makes_recurrence : recurrence.Makes .recurrence := by
  intro f s h
  obtain ⟨start, -, hs⟩ := exists_of_bind_eq_ok h
  cases hs
  rfl

theorem makes_filter : filter.Makes .filter := by
  intro f s h
  cases h
  rfl

theorem makes_constant (s : Section) : (constant s).Makes s.kind := by
  intro f made h
  cases h
  rfl

theorem makes_epoch : epoch.Makes .epoch := by
  intro f s h
  obtain ⟨seconds, -, hs⟩ := exists_of_bind_eq_ok h
  split at hs <;> cases hs
  rfl

theorem makes_amount : amount.Makes .amount := by
  intro f s h
  obtain ⟨_, _, -, -, rfl⟩ := build_amount_eq_ok h
  rfl

theorem makes_range : range.Makes .range := by
  intro f s h
  obtain ⟨_, _, -, -, rfl⟩ := build_range_eq_ok h
  rfl

theorem makes_interval : interval.Makes .interval := by
  intro f s h
  rcases build_interval_eq_ok h with ⟨_, -, rfl⟩ | ⟨_, -, rfl⟩ <;> rfl

theorem makes_between : between.Makes .between := by
  intro f s h
  obtain ⟨start, -, hs⟩ := exists_of_bind_eq_ok h
  cases hs
  rfl

theorem makes_weekdays : weekdays.Makes .weekdays := by
  intro f s h
  obtain ⟨_, -, rfl⟩ := build_weekdays_eq_ok h
  rfl

theorem makes_yearDay : yearDay.Makes .yearDay := by
  intro f s h
  obtain ⟨number, -, hs⟩ := exists_of_bind_eq_ok h
  cases hs
  rfl

theorem makes_time : time.Makes .time := by
  intro f s h
  obtain ⟨hour, -, h⟩ := exists_of_bind_eq_ok h
  obtain ⟨minute, -, hs⟩ := exists_of_bind_eq_ok h
  cases hs
  rfl

theorem makes_date : date.Makes .date := by
  intro f s h
  obtain ⟨year, -, h⟩ := exists_of_bind_eq_ok h
  obtain ⟨month, -, h⟩ := exists_of_bind_eq_ok h
  obtain ⟨day, -, hs⟩ := exists_of_bind_eq_ok h
  split at hs <;> cases hs
  rfl

theorem makes_literal : literal.Makes .literal := by
  intro f s h
  obtain ⟨_, -, -, -, rfl⟩ := build_literal_eq_ok h
  rfl

/-- The names that every expression may use, each with the variant that it stands for. -/
def kinds : List (String × Section.Kind) :=
  [("repeat", .recurrence), ("filter", .filter), ("now", .now), ("sunrise", .sunrise),
    ("sunset", .sunset), ("forever", .forever), ("epoch", .epoch), ("amount", .amount),
    ("range", .range), ("interval", .interval), ("between", .between), ("day_name", .weekdays),
    ("day_number", .yearDay), ("time", .time), ("date", .date), ("iso8601", .literal)]

theorem exists_makes_of_mem_defaults {schema : Schema} (h : (name, schema) ∈ defaults) :
    ∃ kind, (name, kind) ∈ kinds ∧ schema.Makes kind := by
  simp only [defaults, List.mem_cons, List.not_mem_nil, or_false, Prod.mk.injEq] at h
  rcases h with ⟨rfl, rfl⟩ | ⟨rfl, rfl⟩ | ⟨rfl, rfl⟩ | ⟨rfl, rfl⟩ | ⟨rfl, rfl⟩ | ⟨rfl, rfl⟩ |
    ⟨rfl, rfl⟩ | ⟨rfl, rfl⟩ | ⟨rfl, rfl⟩ | ⟨rfl, rfl⟩ | ⟨rfl, rfl⟩ | ⟨rfl, rfl⟩ | ⟨rfl, rfl⟩ |
    ⟨rfl, rfl⟩ | ⟨rfl, rfl⟩ | ⟨rfl, rfl⟩
  exacts [⟨_, by decide, makes_recurrence⟩, ⟨_, by decide, makes_filter⟩,
    ⟨_, by decide, makes_constant _⟩, ⟨_, by decide, makes_constant _⟩,
    ⟨_, by decide, makes_constant _⟩, ⟨_, by decide, makes_constant _⟩,
    ⟨_, by decide, makes_epoch⟩, ⟨_, by decide, makes_amount⟩, ⟨_, by decide, makes_range⟩,
    ⟨_, by decide, makes_interval⟩, ⟨_, by decide, makes_between⟩,
    ⟨_, by decide, makes_weekdays⟩, ⟨_, by decide, makes_yearDay⟩, ⟨_, by decide, makes_time⟩,
    ⟨_, by decide, makes_date⟩, ⟨_, by decide, makes_literal⟩]

end Schema

end Almanac

import Almanac.Proofs.Reduction.Run
import Almanac.Proofs.Section.Producers
import Almanac.Reduction.Simplify

/-!
Sections without shorthand. Simplifying ends with one of these in a single step, and nothing that
the section answered before is answered differently after it.
-/

namespace Almanac.Section

open Calendar Period Occurrence Reduction

/-- Whether simplifying leaves sections of the variant as they are. -/
def Kind.isSimple : Kind → Bool
  | .moment | .recurrence | .filter | .group | .intervals | .interval | .amount | .duration
  | .forever | .time | .date => true
  | _ => false

variable {ctx other : Context} {s simple o joined : Section} {members : List Filtered}

theorem simplify_eq_self (hs : s.kind.isSimple = true) (ctx : Context) :
    s.simplify ctx = pure s := by
  cases s with
  | range | now | epoch | sunrise | sunset | weekdays | yearDay | between | literal | filtered =>
    cases hs
  | _ => rfl

theorem isSimple_of_members?_eq_some (h : s.members? = some members) :
    s.kind.isSimple = true := by
  cases s with
  | moment | recurrence | group => rfl
  | _ => cases h

theorem canReturn_simplify_range {low high : Amount}
    (h : ((range low high).simplify ctx).CanReturn simple) : ∃ a, simple = amount a := by
  obtain ⟨a, -, rfl⟩ := exists_of_canReturn_map h
  exact ⟨a, rfl⟩

theorem canReturn_simplify_epoch {seconds : Binary64}
    (h : ((epoch seconds).simplify ctx).CanReturn simple) :
    ∃ i, epochInstant? seconds = some i ∧ simple = moment i := by
  simp only [simplify] at h
  cases hseconds : epochInstant? seconds with
  | none =>
    rw [hseconds] at h
    exact absurd h not_canReturn_fail
  | some i =>
    rw [hseconds] at h
    exact ⟨i, rfl, (canReturn_pure_iff.1 h).symm⟩

/-- What literals come down to, one alternative per kind. -/
theorem expand_eq_ok {l : WrittenLiteral} (h : l.expand = .ok simple) :
    (∃ i, l.value = .dateTime i ∧ simple = moment i) ∨
    (∃ d, l.value = .date d ∧ simple = date d) ∨
    (∃ t, l.value = .time t ∧ simple = time (.ofTimeOfDay t)) ∨
    (∃ d, l.value = .duration d ∧ simple = duration d) ∨
    ∃ r stop, l.value = .repeatingInterval r ∧ r.stop? = some stop ∧
      simple = recurrence ⟨r.start, some stop, some [.duration r.duration]⟩ := by
  unfold WrittenLiteral.expand at h
  split at h
  case h_1 i hvalue => cases h; exact .inl ⟨i, hvalue, rfl⟩
  case h_2 d hvalue => cases h; exact .inr (.inl ⟨d, hvalue, rfl⟩)
  case h_3 t hvalue => cases h; exact .inr (.inr (.inl ⟨t, hvalue, rfl⟩))
  case h_4 d hvalue => cases h; exact .inr (.inr (.inr (.inl ⟨d, hvalue, rfl⟩)))
  case h_5 r hvalue =>
    split at h
    case h_1 stop hstop =>
      cases h
      exact .inr (.inr (.inr (.inr ⟨r, stop, hvalue, hstop, rfl⟩)))
    case h_2 => cases h

theorem isSimple_of_expand_eq_ok {l : WrittenLiteral} (h : l.expand = .ok simple) :
    simple.kind.isSimple = true := by
  rcases expand_eq_ok h with ⟨_, -, rfl⟩ | ⟨_, -, rfl⟩ | ⟨_, -, rfl⟩ | ⟨_, -, rfl⟩ |
    ⟨_, _, -, -, rfl⟩ <;> rfl

theorem isSimple_of_simplify (h : (s.simplify ctx).CanReturn simple) :
    simple.kind.isSimple = true := by
  cases s with
  | literal l => exact isSimple_of_expand_eq_ok (canReturn_ofExcept_iff.1 h)
  | range low high =>
    obtain ⟨a, rfl⟩ := canReturn_simplify_range h
    rfl
  | epoch seconds =>
    obtain ⟨i, _, rfl⟩ := canReturn_simplify_epoch h
    rfl
  | _ => cases canReturn_pure_iff.1 h; rfl

/-- Only what a range becomes is drawn. -/
theorem simplify_eq_pure_or_amount (h : (s.simplify ctx).CanReturn simple) :
    s.simplify ctx = pure simple ∨ ∃ a, simple = amount a := by
  cases s with
  | literal l => exact .inl (congrArg ofExcept (canReturn_ofExcept_iff.1 h))
  | range low high => exact .inr (canReturn_simplify_range h)
  | epoch seconds =>
    obtain ⟨i, hseconds, rfl⟩ := canReturn_simplify_epoch h
    exact .inl (by rw [simplify, hseconds])
  | _ => exact .inl (congrArg pure (canReturn_pure_iff.1 h))

/-- A section that says when something happens comes from the same recurrences when it is
simplified. -/
theorem producers_simplify (h : (s.simplify ctx).CanReturn simple) :
    s.producers = [] ∨ simple.producers = s.producers := by
  cases s with
  | epoch seconds =>
    obtain ⟨i, hseconds, rfl⟩ := canReturn_simplify_epoch h
    exact Or.inr (producers_epoch hseconds).symm
  | moment | recurrence | group | filtered =>
    cases canReturn_pure_iff.1 h
    exact Or.inr rfl
  | _ => exact Or.inl rfl

theorem following_simplify (h : (s.simplify ctx).CanReturn simple) {time i : Instant}
    (hi : s.following time = some i) : simple.following time = some i := by
  rw [following_eq_earliest] at hi ⊢
  rcases producers_simplify h with hnone | hsame
  · rw [hnone] at hi
    cases hi
  · rw [hsame]
    exact hi

theorem nextAdmitted_simplify (h : (s.simplify ctx).CanReturn simple) {time i : Instant}
    (hi : s.nextAdmitted time = .ok (some i)) : simple.nextAdmitted time = .ok (some i) := by
  rw [nextAdmitted_eq_earliest] at hi ⊢
  rcases producers_simplify h with hnone | hsame
  · rw [hnone] at hi
    cases hi
  · rw [hsame]
    exact hi

theorem admits_expand {l : WrittenLiteral} (h : l.expand = .ok simple) (i : Instant) :
    simple.admits i = true := by
  rcases expand_eq_ok h with ⟨_, -, rfl⟩ | ⟨_, -, rfl⟩ | ⟨_, -, rfl⟩ | ⟨_, -, rfl⟩ |
    ⟨_, _, -, -, rfl⟩ <;> rfl

theorem admits_weekdays (days : SortedSet Weekday) (i : Instant) :
    (filter { weekdays := days }).admits i = (weekdays days).admits i :=
  Bool.and_true _

theorem admits_yearDay (number : Nat) (i : Instant) :
    (filter { yearDays := .ofList [number] }).admits i = (yearDay number).admits i := by
  change (number == i.date.dayOfYear || false) = decide (i.date.dayOfYear = number)
  rw [Bool.or_false, Bool.eq_iff_iff, beq_iff_eq, decide_eq_true_eq, eq_comm]

theorem admits_simplify (h : (s.simplify ctx).CanReturn simple) (i : Instant) :
    simple.admits i = s.admits i := by
  cases s with
  | weekdays days => cases canReturn_pure_iff.1 h; exact admits_weekdays days i
  | yearDay number => cases canReturn_pure_iff.1 h; exact admits_yearDay number i
  | literal l => exact admits_expand (canReturn_ofExcept_iff.1 h) i
  | filtered m => cases canReturn_pure_iff.1 h; exact Bool.or_false _
  | range low high =>
    obtain ⟨a, rfl⟩ := canReturn_simplify_range h
    rfl
  | epoch seconds =>
    obtain ⟨i, _, rfl⟩ := canReturn_simplify_epoch h
    rfl
  | _ => cases canReturn_pure_iff.1 h; rfl

/-- Only simple sections can be joined by `and`, with one exception: an event that recurs between
two moments may be written with intervals directly. -/
theorem isSimple_of_and_eq_ok (h : s.and o = .ok joined) :
    o.kind.isSimple = true ∧ (s.kind.isSimple = true ∨
      ∃ start stop intervals, s = between start stop ∧ o.alternatives? = some intervals ∧
        joined = recurrence ⟨start, stop, some intervals⟩) := by
  unfold and at h
  split at h
  case h_12 start stop i => cases h; exact ⟨rfl, Or.inr ⟨start, stop, [i], rfl, rfl, rfl⟩⟩
  case h_13 start stop is => cases h; exact ⟨rfl, Or.inr ⟨start, stop, is, rfl, rfl, rfl⟩⟩
  case h_16 => cases h
  all_goals exact ⟨rfl, Or.inl rfl⟩

/-- An end that never comes is no end. -/
theorem following_getD_forever (start time : Instant) (stop : Option Bound)
    (every : Option (List Interval)) :
    Recurrence.following ⟨start, some (stop.getD .forever), every⟩ time =
      Recurrence.following ⟨start, stop, every⟩ time := by
  cases stop with
  | none => rfl
  | some b => rfl

/-- Simplifying both sides of a join does not change what the two say together. -/
theorem answers_and_simplify {simpleO again : Section} (h : (s.simplify ctx).CanReturn simple)
    (ho : (o.simplify other).CanReturn simpleO) (hjoined : s.and o = .ok joined)
    (hagain : simple.and simpleO = .ok again) (time : Instant) :
    again.following time = joined.following time ∧ again.admits time = joined.admits time := by
  -- The right side of a join that exists is simple already, so at most the left side changes.
  obtain ⟨hsimpleO, hsimple | ⟨start, stop, intervals, rfl, hintervals, rfl⟩⟩ :=
    isSimple_of_and_eq_ok hjoined
  all_goals
    rw [simplify_eq_self hsimpleO] at ho
    cases canReturn_pure_iff.1 ho
  · rw [simplify_eq_self hsimple] at h
    cases canReturn_pure_iff.1 h
    cases hjoined.symm.trans hagain
    exact ⟨rfl, rfl⟩
  · cases canReturn_pure_iff.1 h
    rw [and_eq_recurrence rfl hintervals] at hagain
    cases hagain
    exact ⟨following_getD_forever start time stop (some intervals), rfl⟩

/-- A simplified section stays as it is from then on. It admits what the section admits, and answers
as the section does wherever that one has an answer, alone and, with the other side simplified too,
in any join by `and`. -/
theorem answers_simplified (h : (s.simplify ctx).CanReturn simple) :
    (∀ later, simple.simplify later = pure simple) ∧
    (∀ i, simple.admits i = s.admits i) ∧
    (∀ time i, s.following time = some i → simple.following time = some i) ∧
    (∀ time i, s.nextAdmitted time = .ok (some i) → simple.nextAdmitted time = .ok (some i)) ∧
    ∀ other o simpleO joined again, (o.simplify other).CanReturn simpleO → s.and o = .ok joined →
      simple.and simpleO = .ok again → ∀ time,
        again.following time = joined.following time ∧ again.admits time = joined.admits time := by
  refine ⟨simplify_eq_self (isSimple_of_simplify h), admits_simplify h,
    fun _ _ => following_simplify h, fun _ _ => nextAdmitted_simplify h, ?_⟩
  intro other o simpleO joined again ho hjoined hagain
  exact answers_and_simplify h ho hjoined hagain

/-- An event without an end, as it is written and as a recurrence that never ends: with a week as
its interval it comes next after a week either way. -/
theorem answers_simplified_between_weekly :
    let start := Instant.midnight 0 (by decide)
    let ctx : Context := { registry := .empty, now := start }
    let s := between start none
    let simple := recurrence { start := start, stop := some .forever }
    let weekly := interval (.amount ⟨1, .week⟩)
    (s.simplify ctx).CanReturn simple ∧ simple.simplify ctx = pure simple ∧
      ∃ joined again, s.and weekly = .ok joined ∧ simple.and weekly = .ok again ∧
        again.following start = some (.midnight 7 (by decide)) ∧
        again.following start = joined.following start := by
  intro start ctx s simple weekly
  have hsimple : (s.simplify ctx).CanReturn simple := canReturn_pure_iff.2 rfl
  have hweekly : (weekly.simplify ctx).CanReturn weekly := canReturn_pure_iff.2 rfl
  obtain ⟨hagain, -, -, -, hjoin⟩ := answers_simplified hsimple
  refine ⟨hsimple, hagain ctx, _, _, rfl, rfl, by decide +kernel, ?_⟩
  exact (hjoin ctx weekly weekly _ _ hweekly rfl rfl start).1

end Almanac.Section

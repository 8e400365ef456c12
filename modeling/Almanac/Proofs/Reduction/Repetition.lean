import Almanac.Proofs.Occurrence.Following
import Almanac.Proofs.Reduction.Run
import Almanac.Reduction.Simplify
import Almanac.Section.Literal
import Almanac.Section.Search

/-!
Literals that recur a given number of times. Their last occurrence is told only by an end, which is
a step beyond it and does not count; as the steps lead forward, the occurrences before the end are
as many as the literal asks for.
-/

namespace Almanac

open Calendar Period Occurrence Literal

theorem Period.Duration.isZero_step_eq_false {d : Duration} (h : d ≠ {}) :
    d.step.isZero = false := by
  obtain ⟨years, months, weeks, days, hours, minutes, seconds⟩ := d
  refine Bool.eq_false_iff.2 fun hzero => h ?_
  simp only [Step.isZero, Bool.and_eq_true, decide_eq_true_eq] at hzero
  simp only [Duration.step, maxStepMonths] at hzero
  simp only [Duration.mk.injEq]
  omega

namespace Occurrence.Recurrence

section Counted

variable {e : Interval} {start stop : Instant} {count : Nat}
variable (huniform : e.IsUniform) (hstart : ¬ start.IsLeap)
variable (hforward : e.step.isZero = false) (hcount : 1 ≤ count)
variable (hstop : e.step.Reaches start count stop)

include hforward hcount hstop

/-- A recurrence that ends `count` steps after its start is due after fewer steps, and at no other
time. -/
theorem mem_dueAt_iff_of_reaches_stop {i : Instant} :
    i ∈ dueAt ⟨start, some (.moment stop), some [e]⟩ [e] ↔
      ∃ k < count, e.step.Reaches start k i := by
  constructor
  · rintro (rfl | ⟨_, he, k, hk, hreached, hbefore⟩)
    · exact ⟨0, hcount, e.step.reaches_zero _⟩
    · cases List.mem_singleton.1 he
      -- What is due lies before the end, and no later step leads before an earlier one.
      refine ⟨k, Nat.lt_of_not_le fun hle => ?_, hreached⟩
      have hafter := hstop.le hforward e.step_seconds_nonneg hreached hle
      exact Instant.not_lt.2 hafter (hbefore stop rfl)
  · rintro ⟨k, hk, hreached⟩
    rcases Nat.eq_zero_or_pos k with rfl | hpos
    · exact Or.inl (hreached.eq (e.step.reaches_zero start))
    · refine Or.inr ⟨e, List.mem_singleton_self e, k, hpos, hreached, ?_⟩
      rintro _ ⟨⟩
      exact hreached.lt hforward e.step_seconds_nonneg hstop hk

include huniform hstart

theorem isRegular_of_reaches_stop : IsRegular ⟨start, some (.moment stop), some [e]⟩ where
  start_lt_stop := by
    rintro _ ⟨⟩
    exact (e.step.reaches_zero start).lt hforward e.step_seconds_nonneg hstop hcount
  isUniform := by
    rintro _ ⟨⟩ _ he
    rw [List.mem_singleton.1 he]
    exact huniform
  start_not_isLeap := hstart

/-- Leap seconds that are asked about included, the next occurrence is the first of those after
fewer steps. -/
theorem isFirst_following_of_reaches_stop (time : Instant) :
    IsFirst {i | (∃ k < count, e.step.Reaches start k i) ∧ time < i}
      (following ⟨start, some (.moment stop), some [e]⟩ time) := by
  have hregular := isRegular_of_reaches_stop huniform hstart hforward hcount hstop
  have hwithin : ¬ e.step.Overshoots start time := by
    by_cases htime : time.IsLeap
    · exact huniform.not_overshoots_of_isLeap hstart htime
    · exact huniform.not_overshoots hstart htime
  have hfirst : IsFirst _ (following ⟨start, some (.moment stop), some [e]⟩ time) :=
    isFirst_following_of_not_overshoots hregular rfl fun _ he =>
      List.mem_singleton.1 he ▸ hwithin
  refine hfirst.congr fun i => ?_
  exact and_congr_left' (mem_dueAt_iff_of_reaches_stop hforward hcount hstop)

end Counted

end Occurrence.Recurrence

namespace Section

variable {ctx : Context} {written : String} {r : Repetition} {count : Nat} {s : Section}

theorem simplify_literal_of_read {kind : Literal.Kind} {value : Value}
    (hread : Literal.read kind written.toList = .ok value) (ctx : Context) :
    .ofExcept ((WrittenLiteral.read kind written).map literal) >>= simplify ctx =
      .ofExcept (WrittenLiteral.expand ⟨written, value⟩) := by
  unfold WrittenLiteral.read
  rw [hread]
  rfl

/-- A literal with a count that is simplified has an end: the instant of the step that is not taken
any more. -/
theorem expand_repetition_eq_ok (hcount : r.count = some count)
    (h : WrittenLiteral.expand ⟨written, .repeatingInterval r⟩ = .ok s) :
    ∃ stop, r.duration.step.nth? r.start count = some stop ∧
      s = recurrence ⟨r.start, some (.moment stop), some [.duration r.duration]⟩ := by
  simp only [WrittenLiteral.expand, Repetition.stop?, hcount] at h
  cases hstop : r.duration.step.nth? r.start count with
  | none =>
    rw [hstop] at h
    cases h
  | some stop =>
    rw [hstop] at h
    cases h
    exact ⟨stop, rfl, rfl⟩

/-- A literal that asks for `count` occurrences gets exactly that many: its start and what one step
less than `count` leads to at most, in order. Whenever it is asked, it answers with the first of
them that is still to come. -/
theorem following_simplified_repetition (hread : Literal.read .repeatingInterval written.toList =
      .ok (.repeatingInterval r)) (hcount : r.count = some count) (hpos : 1 ≤ count)
    (hduration : r.duration ≠ {}) (huniform : (Interval.duration r.duration).IsUniform)
    (hstart : ¬ r.start.IsLeap)
    (h : (.ofExcept ((WrittenLiteral.read .repeatingInterval written).map literal) >>=
      simplify ctx).CanReturn s) :
    s.kind = .recurrence ∧ ∃ occurrence : Fin count → Instant,
      (∀ k : Fin count, r.duration.step.nth? r.start k = some (occurrence k)) ∧
      (∀ j k, j < k → occurrence j < occurrence k) ∧
      ∀ time, IsFirst {i | (∃ k, occurrence k = i) ∧ time < i} (s.following time) := by
  rw [simplify_literal_of_read hread] at h
  obtain ⟨stop, hstop, rfl⟩ :=
    expand_repetition_eq_ok hcount (Reduction.canReturn_ofExcept_iff.1 h)
  have hforward := Duration.isZero_step_eq_false hduration
  have hseconds : 0 ≤ r.duration.step.seconds :=
    (Interval.duration r.duration).step_seconds_nonneg
  rw [Step.nth?_eq_some_iff hstart hseconds] at hstop
  have hexists (k : Fin count) : ∃ i, r.duration.step.Reaches r.start k i :=
    hstop.exists_of_le hforward hseconds hstart (Nat.le_of_lt k.isLt)
  choose occurrence hreached using hexists
  refine ⟨rfl, occurrence, fun k => (Step.nth?_eq_some_iff hstart hseconds).2 (hreached k),
    fun j k hlt => (hreached j).lt hforward hseconds (hreached k) hlt, fun time => ?_⟩
  have hfirst := Recurrence.isFirst_following_of_reaches_stop huniform hstart hforward hpos hstop
    time
  refine hfirst.congr fun i => and_congr_left' ⟨?_, ?_⟩
  · rintro ⟨k, hk, hi⟩
    exact ⟨⟨k, hk⟩, (hreached ⟨k, hk⟩).eq hi⟩
  · rintro ⟨k, rfl⟩
    exact ⟨k, k.isLt, hreached k⟩

/-- Three occurrences at the ends of months, from January of a leap year on. -/
theorem following_simplified_repetition_end_of_month :
    let written := "R3/2024-01-31T00:00:00Z/P1M"
    let january := Instant.midnight 19753 (by decide)
    let february := Instant.midnight 19782 (by decide)
    let march := Instant.midnight 19813 (by decide)
    let april := Instant.midnight 19843 (by decide)
    let ctx : Context := { registry := .empty, now := january }
    let r : Repetition := ⟨some 3, january, { months := 1 }⟩
    let s := recurrence ⟨january, some (.moment april), some [.duration { months := 1 }]⟩
    Literal.read .repeatingInterval written.toList = .ok (.repeatingInterval r) ∧
      (.ofExcept ((WrittenLiteral.read .repeatingInterval written).map literal) >>=
        simplify ctx).CanReturn s ∧
      ∀ time, IsFirst {i | i ∈ [january, february, march] ∧ time < i} (s.following time) := by
  intro written january february march april ctx r s
  have hread : Literal.read .repeatingInterval written.toList = .ok (.repeatingInterval r) :=
    eq_ok_of_toOption_eq_some (by decide +kernel)
  have hstop : r.duration.step.nth? january (3 : Nat) = some april := by decide +kernel
  have hsimplify : (.ofExcept ((WrittenLiteral.read .repeatingInterval written).map literal) >>=
      simplify ctx).CanReturn s := by
    rw [simplify_literal_of_read hread, Reduction.canReturn_ofExcept_iff]
    simp only [WrittenLiteral.expand, Repetition.stop?, r, hstop]
    rfl
  refine ⟨hread, hsimplify, fun time => ?_⟩
  obtain ⟨-, occurrence, hnth, -, hfirst⟩ := following_simplified_repetition hread rfl
    (by decide) (by decide) (by decide) (by decide) hsimplify
  have hjanuary : occurrence 0 = january :=
    Option.some.inj ((hnth 0).symm.trans (by decide +kernel))
  have hfebruary : occurrence 1 = february :=
    Option.some.inj ((hnth 1).symm.trans (by decide +kernel))
  have hmarch : occurrence 2 = march :=
    Option.some.inj ((hnth 2).symm.trans (by decide +kernel))
  refine (hfirst time).congr fun i => and_congr_left' ?_
  rw [Fin.exists_fin_succ, Fin.exists_fin_two]
  simp only [List.mem_cons, List.not_mem_nil, or_false, ← hjanuary, ← hfebruary, ← hmarch]
  exact or_congr eq_comm (or_congr eq_comm eq_comm)

end Section

end Almanac

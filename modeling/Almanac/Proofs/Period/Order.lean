import Mathlib.Data.Nat.SuccPred
import Almanac.Proofs.Period.Estimate

/-!
The repetitions of a step in order. Each leads further than all before it, however the days are cut
off at the ends of short months, and the calendar ends for all later ones once it ends for one. So
the repetitions up to some time have a last one, and the estimate is off by one at most where months
and seconds do not mix.
-/

namespace Almanac.Period

open Calendar

namespace Interval

/-- A later repetition of an interval is at a later time, and where it is within the calendar every
earlier one is. -/
theorem earlier_repetition (e : Interval) {start : Instant} (hforward : e.step.isZero = false)
    (hstart : ¬ start.IsLeap) {few many : Int} (hfew : 0 ≤ few) (hlt : few < many) :
    (∀ later, e.step.nth? start many = some later →
      ∃ earlier, e.step.nth? start few = some earlier ∧ earlier < later) ∧
    (e.step.nth? start few = none → e.step.nth? start many = none) := by
  have hseconds := e.step_seconds_nonneg
  obtain ⟨few, rfl⟩ := Int.eq_ofNat_of_zero_le hfew
  obtain ⟨many, rfl⟩ := Int.eq_ofNat_of_zero_le (Int.le_trans hfew (Int.le_of_lt hlt))
  replace hlt : few < many := Int.ofNat_lt.1 hlt
  have hearlier (later : Instant) (hlater : e.step.nth? start many = some later) :
      ∃ earlier, e.step.nth? start few = some earlier ∧ earlier < later := by
    have hmany := (Step.nth?_eq_some_iff hstart hseconds).1 hlater
    obtain ⟨earlier, hreached⟩ :=
      hmany.exists_of_le hforward hseconds hstart (Nat.le_of_lt hlt)
    exact ⟨earlier, (Step.nth?_eq_some_iff hstart hseconds).2 hreached,
      hreached.lt hforward hseconds hmany hlt⟩
  refine ⟨hearlier, fun hnone => Option.eq_none_iff_forall_ne_some.2 fun later hlater => ?_⟩
  obtain ⟨earlier, hfound, -⟩ := hearlier later hlater
  cases hnone.symm.trans hfound

/-- Monthly from the end of January 1970: the end of March comes after the end of February, and as
the calendar has no repetition with the number 3200000 it has none after it. -/
theorem earlier_repetition_end_of_january :
    let e : Interval := .amount ⟨1, .month⟩
    let start := Instant.midnight 30 (by decide)
    let march := Instant.midnight 89 (by decide)
    e.step.isZero = false ∧ ¬ start.IsLeap ∧ e.step.nth? start 2 = some march ∧
      (∃ february, e.step.nth? start 1 = some february ∧ february < march) ∧
      e.step.nth? start 3200000 = none ∧ e.step.nth? start 3200001 = none := by
  intro e start march
  have hforward : e.step.isZero = false := by decide
  have hstart : ¬ start.IsLeap := by decide
  have hmarch : e.step.nth? start 2 = some march := by decide +kernel
  have hnone : e.step.nth? start 3200000 = none := by decide +kernel
  have hearlier := earlier_repetition e hforward hstart (by decide : (0 : Int) ≤ 1)
    (by decide : (1 : Int) < 2)
  have hbeyond := earlier_repetition e hforward hstart (by decide : (0 : Int) ≤ 3200000)
    (by decide : (3200000 : Int) < 3200001)
  exact ⟨hforward, hstart, hmarch, hearlier.1 march hmarch, hnone, hbeyond.2 hnone⟩

end Interval

namespace Step

variable {s : Step} {start time : Instant} {count : Nat}

/-- The numbers of steps that lead to an instant of the calendar which is not after `time`. -/
def countsUpTo (s : Step) (start time : Instant) : Set Nat :=
  {count | ∃ i, s.nth? start count = some i ∧ i ≤ time}

theorem mem_countsUpTo_iff (hstart : ¬ start.IsLeap) (hseconds : 0 ≤ s.seconds) :
    count ∈ s.countsUpTo start time ↔ ∃ i, s.Reaches start count i ∧ i ≤ time := by
  simp only [countsUpTo, Set.mem_ofPred_eq, nth?_eq_some_iff hstart hseconds]

theorem zero_mem_countsUpTo (hstart : ¬ start.IsLeap) (hseconds : 0 ≤ s.seconds)
    (hle : start ≤ time) : 0 ∈ s.countsUpTo start time :=
  (mem_countsUpTo_iff hstart hseconds).2 ⟨start, reaches_zero s start, hle⟩

section Forward

variable (hforward : s.isZero = false) (hseconds : 0 ≤ s.seconds) (hstart : ¬ start.IsLeap)

include hforward hseconds hstart

theorem mem_countsUpTo_of_le {few many : Nat} (hmany : many ∈ s.countsUpTo start time)
    (hle : few ≤ many) : few ∈ s.countsUpTo start time := by
  rw [mem_countsUpTo_iff hstart hseconds] at hmany ⊢
  obtain ⟨later, hlater, hlast⟩ := hmany
  obtain ⟨earlier, hearlier⟩ := hlater.exists_of_le hforward hseconds hstart hle
  exact ⟨earlier, hearlier, Instant.le_trans (hearlier.le hforward hseconds hlater hle) hlast⟩

/-- The calendar is finite, so some number of steps up to a time is the last. -/
theorem exists_isGreatest_countsUpTo (hle : start ≤ time) :
    ∃ last, IsGreatest (s.countsUpTo start time) last := by
  refine BddAbove.exists_isGreatest_of_nonempty ⟨maxCount, fun count hcount => ?_⟩
    ⟨0, zero_mem_countsUpTo hstart hseconds hle⟩
  obtain ⟨i, hi, -⟩ := (mem_countsUpTo_iff hstart hseconds).1 hcount
  exact Nat.le_of_lt (hi.count_lt hforward hseconds hstart)

/-- A repetition is after the time exactly if it comes after the last that is not. -/
theorem lt_iff_of_isGreatest {last : Nat} (hlast : IsGreatest (s.countsUpTo start time) last)
    {i : Instant} (hi : s.Reaches start count i) : time < i ↔ last < count := by
  rw [← Instant.not_le, ← Nat.not_le]
  refine not_congr ⟨fun hle => ?_, fun hle => ?_⟩
  · exact hlast.2 ((mem_countsUpTo_iff hstart hseconds).2 ⟨i, hi, hle⟩)
  · obtain ⟨j, hj, hjle⟩ := (mem_countsUpTo_iff hstart hseconds).1
      (mem_countsUpTo_of_le hforward hseconds hstart hlast.1 hle)
    rwa [hi.eq hj]

/-- Where a repetition is itself the time, it is the last up to it. -/
theorem isGreatest_countsUpTo (hi : s.Reaches start count time) :
    IsGreatest (s.countsUpTo start time) count := by
  refine ⟨(mem_countsUpTo_iff hstart hseconds).2 ⟨time, hi, Instant.le_refl time⟩, ?_⟩
  intro k hk
  obtain ⟨j, hj, hbefore⟩ := (mem_countsUpTo_iff hstart hseconds).1 hk
  exact Nat.not_lt.1 fun hlt =>
    Instant.not_le.2 (hi.lt hforward hseconds hj hlt) hbefore

end Forward

theorem secondAfter_of_months_eq_zero (hmonths : s.months = 0) (start : Instant) (count : Nat) :
    s.secondAfter start count = start.second + count * s.seconds := by
  have := start.second_eq_day_add_timeOfDay
  simp only [secondAfter, hmonths, Nat.mul_zero, Int.natCast_zero, shiftMonths_zero]
  omega

section Estimate

variable (hstart : ¬ start.IsLeap) (htime : ¬ time.IsLeap)

include hstart htime

/-- Without months the whole seconds up to a time tell which repetitions are not after it. -/
theorem Reaches.le_iff_mul_seconds_le {i : Instant} (hi : s.Reaches start count i)
    (hmonths : s.months = 0) (hle : start ≤ time) :
    i ≤ time ↔ count * s.seconds ≤ time.secondsSince start := by
  have hsecond : i.second - start.second = count * s.seconds := by
    rw [hi.1, secondAfter_of_months_eq_zero hmonths]
    omega
  rw [← Instant.le_secondsSince_iff htime hstart hle hi.2, hsecond]

/-- No step up to the time is left out of the estimate. -/
theorem le_estimate_of_mem_countsUpTo (hforward : s.isZero = false) (hseconds : 0 ≤ s.seconds)
    (hcount : count ∈ s.countsUpTo start time) : count ≤ s.estimate start time := by
  rcases Nat.eq_zero_or_pos count with rfl | hpos
  · exact Nat.zero_le _
  obtain ⟨i, hi, hbefore⟩ := (mem_countsUpTo_iff hstart hseconds).1 hcount
  have hlt : start < time :=
    Instant.lt_of_lt_of_le ((reaches_zero s start).lt hforward hseconds hi hpos) hbefore
  have hle := Instant.le_of_lt hlt
  by_cases hmonths : s.months = 0
  · have hsome : 0 < s.seconds := by
      simp only [isZero, hmonths, decide_true, Bool.true_and, decide_eq_false_iff_not] at hforward
      omega
    rw [le_estimate_iff_mul_seconds_le hlt hmonths hsome
      (Instant.secondsSince_nonneg htime hstart hle)]
    exact (hi.le_iff_mul_seconds_le hstart htime hmonths hle).1 hbefore
  · rw [le_estimate_iff_mul_months_le hlt hmonths (Instant.monthsSince_nonneg hle)]
    apply le_monthOf_sub_of_shiftMonths_le
    -- The seconds of a repetition lead on from the day that its months lead to.
    have hday := Instant.day_le_day hbefore
    have hmove : 0 ≤ (count : Int) * s.seconds := Int.mul_nonneg (by omega) hseconds
    have hsecond : i.second = _ := hi.1
    have hiSecond := i.second_eq_day_add_timeOfDay
    have hiTime := i.timeOfDay_second_lt
    unfold secondAfter at hsecond
    omega

/-- Without months the estimated step itself is not after the time. -/
theorem estimate_mem_countsUpTo (hmonths : s.months = 0) (hseconds : 0 ≤ s.seconds)
    (hle : start ≤ time) : s.estimate start time ∈ s.countsUpTo start time := by
  rcases Nat.eq_zero_or_pos (s.estimate start time) with hzero | hpos
  · rw [hzero]
    exact zero_mem_countsUpTo hstart hseconds hle
  have hcounted :=
    estimate_mul_seconds_le hmonths (Instant.secondsSince_nonneg htime hstart hle) hpos
  have hroom := Instant.secondsSince_le htime hstart hle
  have hlast := time.le_lastSecond
  have hsecond := secondAfter_of_months_eq_zero hmonths start (s.estimate start time)
  obtain ⟨i, hi⟩ := exists_reaches hstart hseconds
    (show s.secondAfter start (s.estimate start time) ≤ lastSecond by omega)
  rw [mem_countsUpTo_iff hstart hseconds]
  exact ⟨i, hi, (hi.le_iff_mul_seconds_le hstart htime hmonths hle).2 hcounted⟩

omit htime in
/-- Without seconds the step before the estimated one leads to an earlier day than the time's. -/
theorem estimate_pred_mem_countsUpTo (hmonths : s.months ≠ 0) (hseconds : s.seconds = 0)
    (hpos : 0 < s.estimate start time) :
    s.estimate start time - 1 ∈ s.countsUpTo start time := by
  have hday := shiftMonths_estimate_pred_lt hmonths hpos
  have htimeSecond := time.second_eq_day_add_timeOfDay
  have hstartTime := start.timeOfDay_second_lt
  have hsecond : s.secondAfter start (s.estimate start time - 1) < time.second := by
    unfold secondAfter
    rw [hseconds, Int.mul_zero]
    omega
  have hlast := time.le_lastSecond
  obtain ⟨i, hi⟩ := exists_reaches hstart (Int.le_of_eq hseconds.symm)
    (show s.secondAfter start (s.estimate start time - 1) ≤ lastSecond by omega)
  rw [mem_countsUpTo_iff hstart (Int.le_of_eq hseconds.symm)]
  refine ⟨i, hi, Instant.le_of_second_lt ?_⟩
  rw [hi.1]
  exact hsecond

end Estimate

/-- How far the estimate is off: never too low, right without months, and too high by one at most
without seconds. -/
theorem estimate_bounds {last : Nat} (hforward : s.isZero = false) (hseconds : 0 ≤ s.seconds)
    (hstart : ¬ start.IsLeap) (htime : ¬ time.IsLeap) (hle : start ≤ time)
    (hlast : IsGreatest (s.countsUpTo start time) last) :
    last ≤ s.estimate start time ∧ (s.months = 0 → s.estimate start time = last) ∧
      (s.seconds = 0 → s.estimate start time ≤ last + 1) := by
  have hlow := le_estimate_of_mem_countsUpTo hstart htime hforward hseconds hlast.1
  refine ⟨hlow, fun hmonths => ?_, fun hnone => ?_⟩
  · exact Nat.le_antisymm (hlast.2 (estimate_mem_countsUpTo hstart htime hmonths hseconds hle)) hlow
  · have hmonths : s.months ≠ 0 := by
      rintro hmonths
      simp [isZero, hmonths, hnone] at hforward
    rcases Nat.eq_zero_or_pos (s.estimate start time) with hzero | hpos
    · omega
    · have hpred := hlast.2 (estimate_pred_mem_countsUpTo hstart hmonths hnone hpos)
      omega

end Step

end Almanac.Period

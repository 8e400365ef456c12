import Almanac.Proofs.Period.Repetition

/-!
The estimated number of steps up to an instant. A step of one kind of units alone is never
estimated beyond the calendar. One that mixes months and seconds can be, since the estimate counts
the months and leaves the seconds out.
-/

namespace Almanac

open Calendar

/-- The month of a later moment is not an earlier one. -/
theorem Calendar.Instant.monthsSince_nonneg {later earlier : Instant} (hle : earlier ≤ later) :
    0 ≤ later.monthsSince earlier := by
  apply le_monthOf_sub_of_shiftMonths_le
  rw [shiftMonths_zero]
  exact Instant.day_le_day hle

namespace Period

namespace Step

/-- The calendar ends before the last but one of the steps that are estimated up to an instant. -/
def Overshoots (s : Step) (start time : Instant) : Prop :=
  1 < s.estimate start time ∧
    s.nth? start ((s.estimate start time - 1 : Nat) : Int) = none

instance (s : Step) (start time : Instant) : Decidable (s.Overshoots start time) := by
  unfold Overshoots
  infer_instance

variable {s : Step} {start time : Instant}

theorem estimate_of_le (h : time ≤ start) : s.estimate start time = 0 := by
  unfold estimate
  rw [if_pos h]

theorem estimate_of_not_forward (hmonths : s.months = 0) (hseconds : s.seconds ≤ 0) :
    s.estimate start time = 0 := by
  unfold estimate
  rw [if_pos hmonths, if_pos hseconds]
  split <;> rfl

theorem estimate_of_months_eq_zero (hlt : start < time) (hmonths : s.months = 0)
    (hseconds : 0 < s.seconds) :
    s.estimate start time = ((time.secondsSince start).tdiv s.seconds).toNat := by
  unfold estimate
  rw [if_neg (Instant.not_le.2 hlt), if_pos hmonths, if_neg (by omega)]

theorem estimate_of_months_ne_zero (hlt : start < time) (hmonths : s.months ≠ 0) :
    s.estimate start time = (time.monthsSince start / s.months).toNat := by
  unfold estimate
  rw [if_neg (Instant.not_le.2 hlt), if_neg hmonths]

theorem start_lt_of_estimate_pos (h : 0 < s.estimate start time) : start < time := by
  refine Instant.not_le.1 fun hle => ?_
  rw [estimate_of_le hle] at h
  omega

/-- Without months, as many steps are estimated as the seconds up to the time have room for. -/
theorem le_estimate_iff_mul_seconds_le {count : Nat} (hlt : start < time) (hmonths : s.months = 0)
    (hseconds : 0 < s.seconds) (hnonneg : 0 ≤ time.secondsSince start) :
    count ≤ s.estimate start time ↔ count * s.seconds ≤ time.secondsSince start := by
  rw [estimate_of_months_eq_zero hlt hmonths hseconds, Int.tdiv_eq_ediv_of_nonneg hnonneg,
    Int.le_toNat (Int.ediv_nonneg hnonneg (Int.le_of_lt hseconds)),
    Int.le_ediv_iff_mul_le hseconds]

/-- With months, as many steps are estimated as the difference of the months has room for. -/
theorem le_estimate_iff_mul_months_le {count : Nat} (hlt : start < time) (hmonths : s.months ≠ 0)
    (hnonneg : 0 ≤ time.monthsSince start) :
    count ≤ s.estimate start time ↔ (count * s.months : Nat) ≤ time.monthsSince start := by
  rw [estimate_of_months_ne_zero hlt hmonths,
    Int.le_toNat (Int.ediv_nonneg hnonneg (Int.natCast_nonneg _)),
    Int.le_ediv_iff_mul_le (by omega), Int.natCast_mul]

/-- The seconds of the estimated steps are among those that are counted up to the time. -/
theorem estimate_mul_seconds_le (hmonths : s.months = 0) (hnonneg : 0 ≤ time.secondsSince start)
    (hpos : 0 < s.estimate start time) :
    s.estimate start time * s.seconds ≤ time.secondsSince start := by
  have hseconds : 0 < s.seconds := by
    refine Int.not_le.1 fun hle => ?_
    rw [estimate_of_not_forward hmonths hle] at hpos
    omega
  have hlt := start_lt_of_estimate_pos hpos
  exact (le_estimate_iff_mul_seconds_le hlt hmonths hseconds hnonneg).1 (Nat.le_refl _)

/-- The months of the estimated steps lead into the month of the time at most. -/
theorem estimate_mul_months_le (hmonths : s.months ≠ 0) (hpos : 0 < s.estimate start time) :
    (s.estimate start time * s.months : Nat) ≤ time.monthsSince start := by
  have hlt := start_lt_of_estimate_pos hpos
  have hnonneg := Instant.monthsSince_nonneg (Instant.le_of_lt hlt)
  exact (le_estimate_iff_mul_months_le hlt hmonths hnonneg).1 (Nat.le_refl _)

/-- The months of all but the last of the estimated steps lead to an earlier day. -/
theorem shiftMonths_estimate_pred_lt (hmonths : s.months ≠ 0) (hpos : 0 < s.estimate start time) :
    shiftMonths start.date.day ((s.estimate start time - 1) * s.months : Nat) < time.date.day := by
  have hover := estimate_mul_months_le hmonths hpos
  have hpred : (s.estimate start time - 1) * s.months < s.estimate start time * s.months :=
    Nat.mul_lt_mul_of_pos_right (by omega) (by omega)
  exact shiftMonths_lt_of_lt_monthOf_sub (Int.lt_of_lt_of_le (Int.ofNat_lt.2 hpred) hover)

/-- All but the last of the estimated steps are over by the time, where months and seconds do not
mix, even if a second more is counted than there is. -/
theorem secondAfter_estimate_pred_le (huniform : s.months = 0 ∨ s.seconds = 0)
    (hnonneg : 0 ≤ time.secondsSince start)
    (hcounted : time.secondsSince start ≤ time.second - start.second + 1)
    (hpos : 1 < s.estimate start time) :
    s.secondAfter start (s.estimate start time - 1) ≤ time.second := by
  have hstartSecond := start.second_eq_day_add_timeOfDay
  have htimeSecond := time.second_eq_day_add_timeOfDay
  have hstartDay := start.timeOfDay_second_lt
  unfold secondAfter
  by_cases hmonths : s.months = 0
  · have hseconds : 0 < s.seconds := by
      refine Int.not_le.1 fun hle => ?_
      rw [estimate_of_not_forward hmonths hle] at hpos
      omega
    have hover := estimate_mul_seconds_le hmonths hnonneg (by omega)
    have hcast : ((s.estimate start time - 1 : Nat) : Int) = s.estimate start time - 1 := by omega
    have hpred : (s.estimate start time - 1 : Int) * s.seconds =
        s.estimate start time * s.seconds - s.seconds := by
      rw [Int.sub_mul, Int.one_mul]
    rw [hcast, hpred]
    simp only [hmonths, Nat.mul_zero, Int.natCast_zero, shiftMonths_zero]
    omega
  · have hday := shiftMonths_estimate_pred_lt hmonths (by omega : 0 < s.estimate start time)
    rw [huniform.resolve_left hmonths, Int.mul_zero]
    omega

/-- So none of the estimated steps but the last leaves the calendar. -/
theorem not_overshoots_of_secondsSince_le (hstart : ¬ start.IsLeap) (hseconds : 0 ≤ s.seconds)
    (huniform : s.months = 0 ∨ s.seconds = 0)
    (hcounted : start < time → 0 ≤ time.secondsSince start ∧
      time.secondsSince start ≤ time.second - start.second + 1) : ¬ s.Overshoots start time := by
  rintro ⟨hpos, hnone⟩
  obtain ⟨hnonneg, hcounted⟩ :=
    hcounted (start_lt_of_estimate_pos (Nat.lt_trans Nat.zero_lt_one hpos))
  have hover := secondAfter_estimate_pred_le huniform hnonneg hcounted hpos
  obtain ⟨i, hi⟩ := exists_reaches hstart hseconds (Int.le_trans hover time.le_lastSecond)
  rw [(nth?_eq_some_iff hstart hseconds).2 hi] at hnone
  cases hnone

end Step

namespace Interval

variable {e : Interval} {start time : Instant}

theorem IsUniform.not_overshoots (h : e.IsUniform) (hstart : ¬ start.IsLeap)
    (htime : ¬ time.IsLeap) : ¬ e.step.Overshoots start time := by
  apply Step.not_overshoots_of_secondsSince_le hstart e.step_seconds_nonneg h.step
  intro hlt
  have hle := Instant.le_of_lt hlt
  have hsince := Instant.secondsSince_le htime hstart hle
  exact ⟨Instant.secondsSince_nonneg htime hstart hle, by omega⟩

theorem IsUniform.not_overshoots_of_isLeap (h : e.IsUniform) (hstart : ¬ start.IsLeap)
    (htime : time.IsLeap) : ¬ e.step.Overshoots start time := by
  apply Step.not_overshoots_of_secondsSince_le hstart e.step_seconds_nonneg h.step
  intro hlt
  exact Instant.secondsSince_of_isLeap htime hstart (Instant.le_of_lt hlt)

end Interval

end Period

end Almanac

import Almanac.Calendar.Month.Lemmas
import Almanac.Period.Step

/-!
Moves through the calendar are bounded by its length. A step that leads forward therefore leaves it
after a bounded number of repetitions, which is what ends a search for the first repetition after
some instant, and a move that no word holds leaves it as well.
-/

namespace Almanac.Period

open Calendar

/-- The length of the calendar in seconds, and so a limit to the number of times that any step
forward can be taken. -/
def maxCount : Nat := 16544868105600

theorem yearOf_lower {day : Int} (h : firstDay ≤ day) : -262200 ≤ yearOf day := by
  have := lt_yearStart_yearOf_succ day
  unfold firstDay at h
  unfold yearStart at this
  omega

theorem months_le_of_shiftMonths_le {day months : Int} (h : firstDay ≤ day)
    (hs : shiftMonths day months ≤ lastDay) : months ≤ 6300000 := by
  have hy := yearOf_lower h
  have hd := monthOf_div day
  have hstart := monthStart_le_shiftMonths day months
  have hoffset := daysBefore_nonneg (isLeap ((monthOf day + months) / 12))
    ((monthOf day + months) % 12)
  unfold monthStart yearStart at hstart
  unfold lastDay at hs
  omega

theorem months_le_of_addMonths?_eq_some {start shifted : Instant} {months : Nat}
    (h : start.addMonths? months = some shifted) : months ≤ 6300000 := by
  obtain ⟨d, hd, -⟩ := Option.map_eq_some_iff.1 h
  simp only [Date.addMonths?, Date.ofDay?, Option.dite_none_right_eq_some] at hd
  obtain ⟨⟨-, hle⟩, -⟩ := hd
  have := months_le_of_shiftMonths_le start.date.firstDay_le hle
  omega

theorem bounds_of_addSeconds?_eq_some {start moved : Instant} {seconds : Int}
    (h : start.addSeconds? seconds = some moved) :
    -(maxCount : Int) ≤ seconds ∧ seconds < maxCount := by
  have hlow := start.firstSecond_le
  have hhigh := start.le_lastSecond
  unfold firstSecond at hlow
  unfold lastSecond at hhigh
  unfold maxCount
  unfold Instant.addSeconds? at h
  split at h
  · omega
  · split at h
    · simp only [Instant.ofSecond?, Option.dite_none_right_eq_some] at h
      obtain ⟨⟨hfirst, hlast, -⟩, -⟩ := h
      unfold firstSecond at hfirst
      unfold lastSecond at hlast
      split at hlast <;> omega
    · simp only [Instant.ofSecond?, Option.dite_none_right_eq_some] at h
      obtain ⟨⟨hfirst, hlast, -⟩, -⟩ := h
      unfold firstSecond at hfirst
      unfold lastSecond at hlast
      omega

namespace Step

theorem monthsOf?_eq_some_iff {s : Step} {count : Int} {months : Nat} :
    s.monthsOf? count = some months ↔
      (months : Int) = count * s.months ∧ months ≤ maxStepMonths := by
  unfold monthsOf? product64? maxStepMonths
  generalize count * s.months = product
  by_cases hword : Text.IsWord64 product
  · rw [if_pos hword, Option.bind_some, Option.ite_none_right_eq_some, Option.some.injEq]
    omega
  · rw [if_neg hword, Option.bind_none]
    unfold Text.IsWord64 at hword
    simp only [reduceCtorEq, false_iff]
    omega

theorem secondsOf?_eq_some_iff {s : Step} {count seconds : Int} :
    s.secondsOf? count = some seconds ↔
      seconds = count * s.seconds ∧ seconds.natAbs ≤ maxMoveSeconds := by
  unfold secondsOf? product64? maxMoveSeconds
  generalize count * s.seconds = product
  by_cases hword : Text.IsWord64 product
  · rw [if_pos hword, Option.filter_eq_some_iff, Option.some.injEq, decide_eq_true_eq, eq_comm]
  · rw [if_neg hword, Option.filter_none]
    unfold Text.IsWord64 at hword
    simp only [reduceCtorEq, false_iff]
    omega

/-- More months than a move can add lead beyond the calendar. -/
theorem bind_monthsOf? (s : Step) (start : Instant) (count : Int) :
    (s.monthsOf? count).bind start.addMonths? =
      if count * s.months < 0 then none else start.addMonths? (count * s.months).toNat := by
  refine Option.ext fun moved => ?_
  rw [Option.bind_eq_some_iff, Option.ite_none_left_eq_some]
  constructor
  · rintro ⟨months, hmonths, hmoved⟩
    obtain ⟨hproduct, -⟩ := monthsOf?_eq_some_iff.1 hmonths
    rw [← hproduct, Int.toNat_natCast]
    exact ⟨by omega, hmoved⟩
  · rintro ⟨hforward, hmoved⟩
    have hbound := months_le_of_addMonths?_eq_some hmoved
    refine ⟨_, monthsOf?_eq_some_iff.2 ⟨Int.toNat_of_nonneg (by omega), ?_⟩, hmoved⟩
    unfold maxStepMonths
    omega

/-- More seconds than a move can add lead beyond the calendar. -/
theorem bind_secondsOf? (s : Step) (start : Instant) (count : Int) :
    (s.secondsOf? count).bind start.addSeconds? = start.addSeconds? (count * s.seconds) := by
  refine Option.ext fun moved => ?_
  rw [Option.bind_eq_some_iff]
  constructor
  · rintro ⟨seconds, hseconds, hmoved⟩
    obtain ⟨rfl, -⟩ := secondsOf?_eq_some_iff.1 hseconds
    exact hmoved
  · intro hmoved
    have hbounds := bounds_of_addSeconds?_eq_some hmoved
    refine ⟨_, secondsOf?_eq_some_iff.2 ⟨rfl, ?_⟩, hmoved⟩
    unfold maxCount at hbounds
    unfold maxMoveSeconds
    omega

/-- The limits of words cut nothing off: what they refuse is beyond the calendar. -/
theorem nth?_eq (s : Step) (start : Instant) (count : Int) :
    s.nth? start count =
      if count * s.months < 0 then none
      else
        (start.addMonths? (count * s.months).toNat).bind fun shifted =>
          shifted.addSeconds? (count * s.seconds) := by
  unfold nth?
  simp only [bind_secondsOf?]
  rw [← Option.bind_assoc, bind_monthsOf?]
  split <;> rfl

end Step

theorem count_lt_of_nth?_eq_some {step : Step} {start reached : Instant} {count : Nat}
    (hstep : step.isZero = false) (h : step.nth? start count = some reached) :
    count < maxCount := by
  rw [Step.nth?_eq] at h
  split at h
  · cases h
  · obtain ⟨shifted, hmonths, hseconds⟩ := Option.bind_eq_some_iff.1 h
    have hm := months_le_of_addMonths?_eq_some hmonths
    have hs := (bounds_of_addSeconds?_eq_some hseconds).2
    by_cases hzero : step.months = 0
    · have hpos : 1 ≤ step.seconds := by
        simp only [Step.isZero, hzero, decide_true, Bool.true_and, decide_eq_false_iff_not] at hstep
        omega
      have : (count : Int) * 1 ≤ count * step.seconds :=
        Int.mul_le_mul_of_nonneg_left hpos (by omega)
      omega
    · have hpos : (1 : Int) ≤ step.months := by omega
      have : (count : Int) * 1 ≤ count * step.months :=
        Int.mul_le_mul_of_nonneg_left hpos (by omega)
      unfold maxCount
      omega

end Almanac.Period

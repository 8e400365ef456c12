import Mathlib.Order.Monotone.Basic
import Almanac.Calendar.Month.Lemmas

/-!
Months begin in order, so adding more months leads to a later day, although the day of the month is
cut off at the end of a short month.
-/

namespace Almanac.Calendar

theorem monthStart_le_monthStart {month later : Int} (h : month ≤ later) :
    monthStart month ≤ monthStart later := by
  have hmono : Monotone monthStart := by
    apply monotone_int_of_le_succ
    intro month
    have := (monthLength_bounds month).1
    unfold monthLength at this
    omega
  exact hmono h

theorem monthOf_eq {day month : Int} (hstart : monthStart month ≤ day)
    (hend : day < monthStart (month + 1)) : monthOf day = month := by
  have hbegun := monthStart_monthOf_le day
  have hover := lt_monthStart_monthOf_succ day
  apply Int.le_antisymm
  · refine Int.not_lt.1 fun hlt => ?_
    have := monthStart_le_monthStart (Int.add_one_le_of_lt hlt)
    omega
  · refine Int.not_lt.1 fun hlt => ?_
    have := monthStart_le_monthStart (Int.add_one_le_of_lt hlt)
    omega

theorem shiftMonths_zero (day : Int) : shiftMonths day 0 = day := by
  have hle := dayOfMonth_le day
  simp only [shiftMonths, Int.add_zero, min_eq_left hle]
  unfold dayOfMonth
  omega

/-- Two numbers of months lead into different months. The day of the month plays no part. -/
theorem shiftMonths_lt_shiftMonths (day : Int) {few many : Int} (hlt : few < many) :
    shiftMonths day few < shiftMonths day many := by
  have hmonth : monthOf day + few + 1 ≤ monthOf day + many := by omega
  calc shiftMonths day few
      < monthStart (monthOf day + few + 1) := shiftMonths_lt day few
    _ ≤ monthStart (monthOf day + many) := monthStart_le_monthStart hmonth
    _ ≤ shiftMonths day many := monthStart_le_shiftMonths day many

theorem le_shiftMonths (day : Int) {months : Int} (h : 0 ≤ months) :
    day ≤ shiftMonths day months := by
  rcases Int.lt_or_eq_of_le h with hpos | rfl
  · have hlt := shiftMonths_lt_shiftMonths day hpos
    rw [shiftMonths_zero] at hlt
    exact Int.le_of_lt hlt
  · exact Int.le_of_eq (shiftMonths_zero day).symm

/-- Fewer months than lie between two days do not reach the later one. -/
theorem shiftMonths_lt_of_lt_monthOf_sub {day later months : Int}
    (h : months < monthOf later - monthOf day) : shiftMonths day months < later := by
  have hmonth : monthOf day + months + 1 ≤ monthOf later := by omega
  calc shiftMonths day months
      < monthStart (monthOf day + months + 1) := shiftMonths_lt day months
    _ ≤ monthStart (monthOf later) := monthStart_le_monthStart hmonth
    _ ≤ later := monthStart_monthOf_le later

/-- As many months as have led to an earlier day lie between the two months. -/
theorem le_monthOf_sub_of_shiftMonths_le {day later months : Int}
    (h : shiftMonths day months ≤ later) : months ≤ monthOf later - monthOf day := by
  refine Int.not_lt.1 fun hlt => ?_
  have hmonth : monthOf later + 1 ≤ monthOf day + months := by omega
  have hafter : later < shiftMonths day months :=
    calc later
        < monthStart (monthOf later + 1) := lt_monthStart_monthOf_succ later
      _ ≤ monthStart (monthOf day + months) := monthStart_le_monthStart hmonth
      _ ≤ shiftMonths day months := monthStart_le_shiftMonths day months
  omega

end Almanac.Calendar

import Almanac.Calendar.Date
import Almanac.Calendar.TimeOfDay
import Almanac.Proofs.Calendar.Month

/-!
Dates and times of day by their numbers: which numbers name a time of day, and that the year and the
hour can be told again.
-/

namespace Almanac.Calendar

/-- The numbers of a date name a day of that month. -/
theorem Date.monthIndex_of_ofNumbers?_eq_some {year : Int} {month day : Nat} {d : Date}
    (h : ofNumbers? year month day = some d) : d.monthIndex = 12 * year + (month - 1) := by
  simp only [ofNumbers?, Option.ite_none_right_eq_some, ofDay?, Option.dite_none_right_eq_some] at h
  obtain ⟨⟨_, _, hday, hlength⟩, _, h⟩ := h
  cases h
  unfold monthLength at hlength
  change monthOf (monthStart (12 * year + (month - 1)) + day - 1) = _
  apply monthOf_eq <;> omega

theorem Date.year_of_ofNumbers?_eq_some {year : Int} {month day : Nat} {d : Date}
    (h : ofNumbers? year month day = some d) : d.year = year := by
  have hindex := monthIndex_of_ofNumbers?_eq_some h
  simp only [ofNumbers?, Option.ite_none_right_eq_some] at h
  obtain ⟨hrange, -⟩ := h
  unfold Date.year
  rw [← monthOf_div]
  unfold monthIndex at hindex
  omega

theorem Date.month_bounds (d : Date) : 1 ≤ d.month ∧ d.month ≤ 12 := by
  unfold month
  omega

theorem Date.dayOfMonth_bounds (d : Date) : 1 ≤ d.dayOfMonth ∧ d.dayOfMonth ≤ 31 := by
  have hpos := dayOfMonth_pos d.day
  have hle := dayOfMonth_le d.day
  have hlength := monthLength_bounds (monthOf d.day)
  unfold Date.dayOfMonth
  omega

/-- The numbers of a date name it. -/
theorem Date.ofNumbers?_eq_self (d : Date) : ofNumbers? d.year d.month d.dayOfMonth = some d := by
  have hindex : 12 * d.year + (d.month - 1 : Int) = monthOf d.day := by
    have hdiv := monthOf_div d.day
    simp only [Date.year, Date.month]
    omega
  have hpos := dayOfMonth_pos d.day
  have hle := dayOfMonth_le d.day
  have hday : (d.dayOfMonth : Int) = Calendar.dayOfMonth d.day := Int.toNat_of_nonneg (by omega)
  have hsame : monthStart (monthOf d.day) + Calendar.dayOfMonth d.day - 1 = d.day := by
    unfold Calendar.dayOfMonth
    omega
  have hmonth := d.month_bounds
  have hbounds := d.dayOfMonth_bounds
  simp only [ofNumbers?, hindex, hday, hsame]
  rw [if_pos ⟨hmonth.1, hmonth.2, hbounds.1, hle⟩, ofDay?, dif_pos ⟨d.firstDay_le, d.le_lastDay⟩]

/-- So do the numbers of a time of day that is no leap second. -/
theorem TimeOfDay.ofNumbers?_eq_self {t : TimeOfDay} (h : t.nano < nanosPerSecond) :
    ofNumbers? t.hour t.minute t.secondOfMinute t.nano = some t := by
  have hsecond := t.second_lt
  have hnano : t.nano < 1000000000 := h
  have hnumbers : t.hour < 24 ∧ t.minute < 60 ∧ t.secondOfMinute ≤ 60 ∧ t.nano < 1000000000 := by
    simp only [hour, minute, secondOfMinute]
    omega
  have hsixty : t.secondOfMinute ≠ 60 := by
    unfold secondOfMinute
    omega
  have hsame : 3600 * t.hour + 60 * t.minute + t.secondOfMinute = t.second := by
    simp only [hour, minute, secondOfMinute]
    omega
  simp only [ofNumbers?, dif_pos hnumbers, dif_neg hsixty, hsame]

theorem TimeOfDay.hour_of_ofNumbers?_eq_some {hour minute second nano : Nat} {t : TimeOfDay}
    (h : ofNumbers? hour minute second nano = some t) : t.hour = hour := by
  unfold ofNumbers? at h
  split at h
  case isTrue hrange =>
    unfold TimeOfDay.hour
    split at h <;> cases h <;> simp only <;> omega
  case isFalse => cases h

theorem TimeOfDay.isSome_ofNumbers? {hour minute second nano : Nat} (hhour : hour < 24)
    (hminute : minute < 60) (hsecond : second ≤ 60) (hnano : nano < 1000000000) :
    (ofNumbers? hour minute second nano).isSome = true := by
  unfold ofNumbers?
  rw [dif_pos ⟨hhour, hminute, hsecond, hnano⟩]
  split <;> rfl

theorem ClockTime.isSome_timeOfDay? {c : ClockTime} (hhour : c.hour < 24) (hminute : c.minute < 60)
    (hsecond : c.second < 60) : c.timeOfDay?.isSome = true := by
  unfold timeOfDay?
  rw [if_pos hsecond]
  exact TimeOfDay.isSome_ofNumbers? hhour hminute (Nat.le_of_lt hsecond) (by decide)

/-- What a clock shows is a time of day. -/
theorem ClockTime.isSome_timeOfDay?_ofTimeOfDay (t : TimeOfDay) :
    (ofTimeOfDay t).timeOfDay?.isSome = true := by
  have := t.second_lt
  apply isSome_timeOfDay?
  all_goals
    simp only [ofTimeOfDay, TimeOfDay.hour, TimeOfDay.minute, TimeOfDay.secondOfMinute]
    omega

end Almanac.Calendar

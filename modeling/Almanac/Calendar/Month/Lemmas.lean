import Almanac.Calendar.Month

/-!
Years and months cut the line of days into consecutive pieces: a day lies in the year `yearOf day`
and in the month `monthOf day`, and each month has 28 to 31 days.
-/

namespace Almanac.Calendar

theorem yearStart_yearOf_le (day : Int) : yearStart (yearOf day) ≤ day := by
  simp only [yearOf]
  split
  · simp only [yearStart] at *
    omega
  · split <;> omega

theorem lt_yearStart_yearOf_succ (day : Int) : day < yearStart (yearOf day + 1) := by
  simp only [yearOf]
  split
  · simpa using by assumption
  · split
    · simp only [yearStart] at *
      omega
    · omega

theorem yearStart_succ (year : Int) :
    yearStart (year + 1) = yearStart year + 365 + if isLeap year then 1 else 0 := by
  by_cases h : isLeap year = true
  · simp only [h, if_true]
    simp only [isLeap, Bool.and_eq_true, decide_eq_true_eq, Bool.or_eq_true] at h
    simp only [yearStart]
    omega
  · simp only [h]
    simp only [isLeap, Bool.and_eq_true, decide_eq_true_eq, Bool.or_eq_true] at h
    simp only [yearStart]
    simp only [Bool.false_eq_true, if_false]
    omega

theorem daysBefore_nonneg (leap : Bool) (month : Int) : 0 ≤ daysBefore leap month := by
  unfold daysBefore
  cases leap <;> simp only [Bool.false_eq_true, if_true, if_false] <;> omega

theorem daysBefore_twelve (leap : Bool) : daysBefore leap 12 = 365 + if leap then 1 else 0 := by
  cases leap <;> rfl

theorem daysBefore_succ_bounds (leap : Bool) (month : Int) (h0 : 0 ≤ month) (h1 : month < 12) :
    daysBefore leap month + 28 ≤ daysBefore leap (month + 1) ∧
      daysBefore leap (month + 1) ≤ daysBefore leap month + 31 := by
  have : month = 0 ∨ month = 1 ∨ month = 2 ∨ month = 3 ∨ month = 4 ∨ month = 5 ∨ month = 6 ∨
      month = 7 ∨ month = 8 ∨ month = 9 ∨ month = 10 ∨ month = 11 := by omega
  rcases this with h | h | h | h | h | h | h | h | h | h | h | h <;> subst h <;> cases leap <;>
    decide

theorem monthStart_succ (month : Int) :
    monthStart (month + 1) = yearStart (month / 12) +
      daysBefore (isLeap (month / 12)) (month % 12 + 1) := by
  unfold monthStart
  by_cases h : month % 12 = 11
  · have hd : (month + 1) / 12 = month / 12 + 1 := by omega
    have hm : (month + 1) % 12 = 0 := by omega
    rw [hd, hm, h, yearStart_succ]
    have hz : daysBefore (isLeap (month / 12 + 1)) 0 = 0 := by simp [daysBefore]
    have ht := daysBefore_twelve (isLeap (month / 12))
    rw [hz, show (11 : Int) + 1 = 12 from rfl, ht]
    omega
  · have hd : (month + 1) / 12 = month / 12 := by omega
    have hm : (month + 1) % 12 = month % 12 + 1 := by omega
    rw [hd, hm]

theorem monthLength_bounds (month : Int) : 28 ≤ monthLength month ∧ monthLength month ≤ 31 := by
  have h := daysBefore_succ_bounds (isLeap (month / 12)) (month % 12) (by omega) (by omega)
  unfold monthLength
  rw [monthStart_succ]
  unfold monthStart
  omega

theorem monthWithin_le (leap : Bool) (offset : Int) (latest : Nat) :
    monthWithin leap offset latest ≤ latest := by
  induction latest with
  | zero => simp [monthWithin]
  | succ n ih =>
    unfold monthWithin
    split <;> omega

theorem daysBefore_monthWithin_le (leap : Bool) (offset : Int) (h : 0 ≤ offset) (latest : Nat) :
    daysBefore leap (monthWithin leap offset latest) ≤ offset := by
  induction latest with
  | zero => simpa [monthWithin, daysBefore] using h
  | succ n ih =>
    unfold monthWithin
    split
    · rename_i hle
      simpa using hle
    · exact ih

theorem lt_daysBefore_monthWithin_succ (leap : Bool) (offset : Int) (latest : Nat)
    (h : offset < daysBefore leap (latest + 1)) :
    offset < daysBefore leap (monthWithin leap offset latest + 1) := by
  induction latest with
  | zero => simpa [monthWithin] using h
  | succ n ih =>
    unfold monthWithin
    split
    · simpa using h
    · rename_i hle
      exact ih (by omega)

theorem monthOf_div (day : Int) : monthOf day / 12 = yearOf day := by
  have := monthWithin_le (isLeap (yearOf day)) (day - yearStart (yearOf day)) 11
  simp only [monthOf]
  omega

theorem monthOf_mod (day : Int) : monthOf day % 12 =
    monthWithin (isLeap (yearOf day)) (day - yearStart (yearOf day)) 11 := by
  have := monthWithin_le (isLeap (yearOf day)) (day - yearStart (yearOf day)) 11
  simp only [monthOf]
  omega

theorem monthStart_monthOf_le (day : Int) : monthStart (monthOf day) ≤ day := by
  have hy := yearStart_yearOf_le day
  have := daysBefore_monthWithin_le (isLeap (yearOf day))
    (day - yearStart (yearOf day)) (by omega) 11
  unfold monthStart
  rw [monthOf_div, monthOf_mod]
  omega

theorem lt_monthStart_monthOf_succ (day : Int) : day < monthStart (monthOf day + 1) := by
  have hy := lt_yearStart_yearOf_succ day
  rw [yearStart_succ] at hy
  have ht := daysBefore_twelve (isLeap (yearOf day))
  have := lt_daysBefore_monthWithin_succ (isLeap (yearOf day))
    (day - yearStart (yearOf day)) 11 (by
      rw [show ((11 : Nat) : Int) + 1 = 12 from rfl, ht]
      omega)
  rw [monthStart_succ, monthOf_div, monthOf_mod]
  omega

theorem dayOfMonth_pos (day : Int) : 1 ≤ dayOfMonth day := by
  have := monthStart_monthOf_le day
  unfold dayOfMonth
  omega

theorem dayOfMonth_le (day : Int) : dayOfMonth day ≤ monthLength (monthOf day) := by
  have := lt_monthStart_monthOf_succ day
  unfold dayOfMonth monthLength
  omega

theorem monthStart_le_shiftMonths (day months : Int) :
    monthStart (monthOf day + months) ≤ shiftMonths day months := by
  have := dayOfMonth_pos day
  have := monthLength_bounds (monthOf day + months)
  simp only [shiftMonths]
  omega

theorem shiftMonths_lt (day months : Int) :
    shiftMonths day months < monthStart (monthOf day + months + 1) := by
  simp only [shiftMonths, monthLength]
  omega

end Almanac.Calendar

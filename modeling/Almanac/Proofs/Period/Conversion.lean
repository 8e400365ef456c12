import Mathlib.Tactic.Linarith
import Almanac.Period.Conversion
import Almanac.Period.Range
import Almanac.Proofs.Binary64.Rounding

/-!
How large an amount can become in another unit. From one instant to another there are fewer than
two to the 45th seconds, and no span of units that counts is shorter than a thousandth of a second.
-/

namespace Almanac

open Binary64 Calendar

namespace Calendar.Instant

/-- The calendar has fewer than two to the 54th milliseconds. -/
theorem abs_millisecondsSince_le (later earlier : Instant) :
    |(later.millisecondsSince earlier : ℚ)| ≤ 2 ^ (54 : ℤ) := by
  have hnanos : (later.nanosSince earlier).natAbs ≤ 18014398509481984000000 := by
    have := later.firstSecond_le
    have := later.le_lastSecond
    have := earlier.firstSecond_le
    have := earlier.le_lastSecond
    have := later.nano_lt
    have := earlier.nano_lt
    unfold firstSecond lastSecond at *
    unfold nanosSince date timeOfDay
    dsimp only
    split
    · omega
    · split <;> omega
  have hmilliseconds : (later.millisecondsSince earlier).natAbs ≤ 18014398509481984 := by
    unfold millisecondsSince
    rw [Int.natAbs_tdiv]
    exact Nat.div_le_of_le_mul hnanos
  have hsize : ((later.millisecondsSince earlier).natAbs : ℚ) ≤ 18014398509481984 := by
    exact_mod_cast hmilliseconds
  rw [← Int.cast_abs, Int.abs_eq_natAbs, Int.cast_natCast]
  exact hsize.trans (by norm_num)

end Calendar.Instant

namespace Period

variable {start stop reference : Instant} {months : Nat}

theorem abs_secondsBetween_le (start stop : Instant) :
    |secondsBetween start stop| ≤ 2 ^ (45 : ℤ) := by
  have hmilliseconds : |rounded (stop.millisecondsSince start)| ≤ 2 ^ (54 : ℤ) :=
    abs_rounded_le (by decide) (by decide) (stop.abs_millisecondsSince_le start)
  refine abs_rounded_le (by decide) (by decide) ?_
  rw [abs_div]
  norm_num at hmilliseconds ⊢
  linarith

/-- A span that counts is a millisecond at least. -/
theorem zpow_le_secondsBetween (h : 0 < secondsBetween start stop) :
    2 ^ (-10 : ℤ) ≤ secondsBetween start stop := by
  have hpositive : 0 < stop.millisecondsSince start := by
    by_contra hnot
    have hmilliseconds : (stop.millisecondsSince start : ℚ) ≤ 0 := by exact_mod_cast not_lt.1 hnot
    have hsecond := rounded_nonpos (div_nonpos_of_nonpos_of_nonneg (rounded_nonpos hmilliseconds)
      (by norm_num : (0 : ℚ) ≤ 1000))
    exact absurd h (not_lt.2 hsecond)
  have hone : (2 : ℚ) ^ (0 : ℤ) ≤ stop.millisecondsSince start := by
    rw [zpow_zero]
    exact_mod_cast hpositive
  have hhigh := (le_abs_self _).trans (stop.abs_millisecondsSince_le start)
  have hmilliseconds := le_rounded (by decide) hone
    (hhigh.trans (zpow_le_zpow_right₀ (by norm_num) (by decide)))
  have hbound := (le_abs_self _).trans
    (abs_rounded_le (by decide) (by decide) (stop.abs_millisecondsSince_le start))
  refine le_rounded (by decide) ?_ ?_
  · norm_num at hmilliseconds ⊢
    linarith
  · refine le_trans ?_ (zpow_le_zpow_right₀ (by norm_num) (by decide : (54 : ℤ) ≤ 1000))
    norm_num at hbound hmilliseconds ⊢
    linarith

/-- Such an index is none at all, or one of an instant of the calendar. -/
def IsReached (base : Nat → Option Instant) (index : Nat) : Prop :=
  index = 0 ∨ ∃ i, base index = some i

variable {base : Nat → Option Instant} {limit : Instant} {index : Nat}

theorem isReached_lastNotAfter (base : Nat → Option Instant) (limit : Instant) (index : Nat) :
    IsReached base (lastNotAfter base limit index) := by
  induction index with
  | zero => exact Or.inl rfl
  | succ index ih =>
    unfold lastNotAfter
    split
    case h_1 reached hreached =>
      split
      · exact Or.inr ⟨reached, hreached⟩
      · exact ih
    case h_2 => exact ih

theorem isReached_extendNotAfter (h : IsReached base index) (limit : Instant) (fuel : Nat) :
    IsReached base (extendNotAfter base limit fuel index) := by
  induction fuel generalizing index with
  | zero => exact h
  | succ fuel ih =>
    unfold extendNotAfter
    split
    case h_1 reached hreached =>
      split
      · exact ih (Or.inr ⟨reached, hreached⟩)
      · exact h
    case h_2 => exact h

theorem wholeUnits_le (hmonths : 0 < months) (start stop : Instant) :
    wholeUnits months start stop ≤ 6300000 := by
  have hreached : IsReached (unitsLater? start months) (wholeUnits months start stop) :=
    isReached_extendNotAfter (isReached_lastNotAfter ..) ..
  rcases hreached with hzero | ⟨i, hi⟩
  · omega
  · have hle := months_le_of_addMonths?_eq_some hi
    have := Nat.le_mul_of_pos_right (wholeUnits months start stop) hmonths
    omega

theorem abs_unitsBetween_le (hmonths : 0 < months) (start stop : Instant) :
    |unitsBetween months start stop| ≤ 2 ^ (57 : ℤ) := by
  have hcount : ((wholeUnits months start stop : Nat) : ℚ) ≤ 6300000 := by
    exact_mod_cast wholeUnits_le hmonths start stop
  have hnonneg : (0 : ℚ) ≤ (wholeUnits months start stop : Nat) := Nat.cast_nonneg _
  have hwhole : |((wholeUnits months start stop : Nat) : ℚ)| ≤ 2 ^ (57 : ℤ) := by
    rw [abs_of_nonneg hnonneg]
    exact hcount.trans (by norm_num)
  unfold unitsBetween
  dsimp only
  split
  case h_1 lower upper _ _ =>
    split
    case isTrue => exact hwhole
    case isFalse hspan =>
      have hspan := zpow_le_secondsBetween (not_le.1 hspan)
      have hseconds := abs_secondsBetween_le lower stop
      have hpart : |secondsBetween lower stop / secondsBetween lower upper| ≤ 2 ^ (55 : ℤ) := by
        have hpos : 0 < secondsBetween lower upper :=
          lt_of_lt_of_le (zpow_pos_two (-10)) hspan
        rw [abs_div, abs_of_pos hpos, div_le_iff₀ hpos]
        calc |secondsBetween lower stop| ≤ 2 ^ (45 : ℤ) := hseconds
          _ = 2 ^ (55 : ℤ) * 2 ^ (-10 : ℤ) := by norm_num
          _ ≤ 2 ^ (55 : ℤ) * secondsBetween lower upper := by gcongr
      have hrounded := abs_rounded_le (by decide) (by decide) hpart
      refine abs_rounded_le (by decide) (by decide) ?_
      refine (abs_add_le _ _).trans ?_
      rw [abs_of_nonneg hnonneg]
      norm_num at hrounded ⊢
      linarith
  case h_2 => exact hwhole

/-- An amount of at most 63 bits stays one in every unit, up to the first number beyond them. -/
theorem convertNatural_le (reference : Instant) (source target : TimeUnit) {number : Nat}
    (h : number ≤ maxStepSeconds) :
    convertNatural reference source target number ≤ 2 ^ (63 : ℤ) := by
  refine (le_abs_self _).trans ?_
  unfold convertNatural
  split
  · have hnumber : (number : ℚ) ≤ 9223372036854775807 := by
      unfold maxStepSeconds at h
      exact_mod_cast h
    refine abs_rounded_le (by decide) (by decide) ?_
    rw [abs_of_nonneg (Nat.cast_nonneg number)]
    exact hnumber.trans (by norm_num)
  · dsimp only
    have hlength : (∀ count, target.length = .seconds count → 0 < count) ∧
        ∀ count, target.length = .months count → 0 < count := by
      cases target <;> simp [TimeUnit.length]
    split
    case h_1 count hcount =>
      have hpos : 1 ≤ count := hlength.1 count hcount
      have hone : (1 : ℚ) ≤ count := by exact_mod_cast hpos
      refine abs_rounded_le (by decide) (by decide) ?_
      rw [abs_div, abs_of_nonneg (Nat.cast_nonneg count : (0 : ℚ) ≤ count)]
      refine (div_le_self (abs_nonneg _) hone).trans ?_
      refine (abs_secondsBetween_le _ _).trans ?_
      exact zpow_le_zpow_right₀ (by norm_num) (by decide)
    case h_2 count hcount =>
      refine (abs_unitsBetween_le (hlength.2 count hcount) _ _).trans ?_
      exact zpow_le_zpow_right₀ (by norm_num) (by decide)

end Period

end Almanac

import Mathlib.Algebra.Order.Field.Power
import Mathlib.Algebra.Order.Field.Rat
import Mathlib.Data.Rat.Cast.Order
import Mathlib.Data.Rat.Lemmas
import Mathlib.Tactic.NormNum
import Mathlib.Tactic.Positivity
import Mathlib.Tactic.GCongr
import Mathlib.Tactic.Ring
import Almanac.Binary64.Value

/-!
Rounding to floating point numbers. Between two powers of two the rounded number stays between them,
as both are floating point numbers themselves.
-/

namespace Almanac.Binary64

section Quotient

variable {num den m : Nat}

/-- A quotient that is not below a whole number is not rounded to less than that. -/
theorem le_roundDivEven (hden : 0 < den) (h : m * den ≤ num) : m ≤ roundDivEven num den := by
  have hquotient : m ≤ num / den := (Nat.le_div_iff_mul_le hden).2 h
  unfold roundDivEven
  dsimp only
  split
  · exact hquotient
  · split
    · omega
    · omega

theorem roundDivEven_le (hden : 0 < den) (h : num ≤ m * den) : roundDivEven num den ≤ m := by
  have hsplit := Nat.div_add_mod num den
  have hquotient : num / den ≤ m := by
    rw [Nat.div_le_iff_le_mul hden]
    omega
  have hrest : 0 < num % den → num / den < m := by
    intro hpos
    rw [Nat.div_lt_iff_lt_mul hden]
    refine lt_of_le_of_ne h fun heq => ?_
    rw [heq, Nat.mul_mod_left] at hpos
    exact Nat.lt_irrefl 0 hpos
  unfold roundDivEven
  dsimp only
  split
  · exact hquotient
  · split
    · have := hrest (by omega)
      omega
    · have := hrest (by omega)
      omega

end Quotient

/-- The whole significand of the fraction `num / den` at that last place. -/
def significand (num den : Nat) (place : Int) : Nat :=
  if 0 ≤ place then roundDivEven num (den * twoPow place.toNat)
  else roundDivEven (num * twoPow (-place).toNat) den

theorem nearestBits_eq {num den : Nat} (h : num ≠ 0) :
    nearestBits num den = min ((lastPlace num den + 1074).toNat * hiddenBit +
      significand num den (lastPlace num den)) infinityBits := by
  unfold nearestBits
  rw [if_neg h]
  rfl

variable {num den m : Nat} {place : Int}

theorem twoPow_pos (n : Nat) : 0 < twoPow n :=
  Nat.pow_pos (by decide)

theorem natCast_twoPow (n : Nat) : (twoPow n : ℚ) = 2 ^ (n : ℤ) := by
  rw [zpow_natCast]
  exact Nat.cast_pow 2 n

/-- The quotient of which the significand is the rounded value. -/
theorem exists_significand_eq (hden : 0 < den) (num : Nat) (place : Int) :
    ∃ top bottom, 0 < bottom ∧ significand num den place = roundDivEven top bottom ∧
      (top : ℚ) / bottom = num / den / 2 ^ place := by
  have hdenQ : (den : ℚ) ≠ 0 := by positivity
  unfold significand
  split
  case isTrue hplace =>
    obtain ⟨n, rfl⟩ := Int.eq_ofNat_of_zero_le hplace
    refine ⟨num, den * twoPow n, Nat.mul_pos hden (twoPow_pos n), rfl, ?_⟩
    rw [Nat.cast_mul, natCast_twoPow, div_div]
  case isFalse hplace =>
    obtain ⟨n, hn⟩ := Int.eq_ofNat_of_zero_le (show 0 ≤ -place by omega)
    obtain rfl : place = -(n : Int) := by omega
    refine ⟨num * twoPow n, den, hden, by rw [hn]; rfl, ?_⟩
    rw [Nat.cast_mul, natCast_twoPow, zpow_neg, div_inv_eq_mul, div_mul_eq_mul_div]

theorem le_significand (hden : 0 < den) (h : (m : ℚ) ≤ num / den / 2 ^ place) :
    m ≤ significand num den place := by
  obtain ⟨top, bottom, hbottom, heq, hvalue⟩ := exists_significand_eq hden num place
  rw [← hvalue, le_div_iff₀ (by exact_mod_cast hbottom)] at h
  rw [heq]
  exact le_roundDivEven hbottom (by exact_mod_cast h)

theorem significand_le (hden : 0 < den) (h : (num : ℚ) / den / 2 ^ place ≤ m) :
    significand num den place ≤ m := by
  obtain ⟨top, bottom, hbottom, heq, hvalue⟩ := exists_significand_eq hden num place
  rw [← hvalue, div_le_iff₀ (by exact_mod_cast hbottom)] at h
  rw [heq]
  exact roundDivEven_le hbottom (by exact_mod_cast h)

theorem natCast_hiddenBit : (hiddenBit : ℚ) = 2 ^ (52 : ℤ) := by
  norm_num [hiddenBit]

theorem quotient_bounds (hnum : num ≠ 0) (hden : 0 < den) :
    (2 : ℚ) ^ ((num.log2 : ℤ) - den.log2 - 1) ≤ num / den ∧
      (num : ℚ) / den < 2 ^ ((num.log2 : ℤ) - den.log2 + 1) := by
  have hdenQ : (0 : ℚ) < den := by exact_mod_cast hden
  have hnumLow : (2 : ℚ) ^ (num.log2 : ℤ) ≤ num := by
    rw [zpow_natCast]
    exact_mod_cast Nat.log2_self_le hnum
  have hnumHigh : (num : ℚ) < 2 ^ ((num.log2 : ℤ) + 1) := by
    exact_mod_cast (Nat.lt_log2_self : num < 2 ^ (num.log2 + 1))
  have hdenLow : (2 : ℚ) ^ (den.log2 : ℤ) ≤ den := by
    rw [zpow_natCast]
    exact_mod_cast Nat.log2_self_le (Nat.ne_of_gt hden)
  have hdenHigh : (den : ℚ) < 2 ^ ((den.log2 : ℤ) + 1) := by
    exact_mod_cast (Nat.lt_log2_self : den < 2 ^ (den.log2 + 1))
  constructor
  · rw [le_div_iff₀ hdenQ]
    calc (2 : ℚ) ^ ((num.log2 : ℤ) - den.log2 - 1) * den
        ≤ 2 ^ ((num.log2 : ℤ) - den.log2 - 1) * 2 ^ ((den.log2 : ℤ) + 1) := by gcongr
      _ = 2 ^ (num.log2 : ℤ) := by
        rw [← zpow_add₀ (by norm_num)]
        congr 1
        omega
      _ ≤ num := hnumLow
  · rw [div_lt_iff₀ hdenQ]
    calc (num : ℚ) < 2 ^ ((num.log2 : ℤ) + 1) := hnumHigh
      _ = 2 ^ ((num.log2 : ℤ) - den.log2 + 1) * 2 ^ (den.log2 : ℤ) := by
        rw [← zpow_add₀ (by norm_num)]
        congr 1
        omega
      _ ≤ 2 ^ ((num.log2 : ℤ) - den.log2 + 1) * den := by gcongr

/-- Whether a fraction reaches a power of two, in whole numbers. -/
theorem reached_iff (num : Nat) (hden : 0 < den) (estimate : Int) :
    (if 0 ≤ estimate then decide (2 * hiddenBit * twoPow estimate.toNat * den ≤ num)
      else decide (2 * hiddenBit * den ≤ num * twoPow (-estimate).toNat)) = true ↔
        (2 : ℚ) ^ (estimate + 53) ≤ num / den := by
  have hdenQ : (0 : ℚ) < den := by exact_mod_cast hden
  have hpow : (2 : ℚ) ^ (estimate + 53) = 2 * hiddenBit * 2 ^ estimate := by
    rw [natCast_hiddenBit, ← zpow_one_add₀ (by norm_num), ← zpow_add₀ (by norm_num)]
    congr 1
    omega
  rw [hpow, le_div_iff₀ hdenQ]
  split
  case isTrue hestimate =>
    obtain ⟨n, rfl⟩ := Int.eq_ofNat_of_zero_le hestimate
    rw [decide_eq_true_eq, Int.toNat_natCast, ← natCast_twoPow]
    norm_cast
  case isFalse hestimate =>
    obtain ⟨n, hn⟩ := Int.eq_ofNat_of_zero_le (show 0 ≤ -estimate by omega)
    obtain rfl : estimate = -(n : Int) := by omega
    have hpos : (0 : ℚ) < twoPow n := by exact_mod_cast twoPow_pos n
    rw [decide_eq_true_eq, hn, Int.toNat_natCast, zpow_neg, ← natCast_twoPow,
      mul_right_comm (2 * (hiddenBit : ℚ)), ← div_eq_mul_inv, div_le_iff₀ hpos]
    norm_cast

/-- From this place on there are 53 places of the number, or fewer if it is the last place that
there is. -/
structure IsLastPlace (num den : Nat) (place : Int) : Prop where
  lowest_le : -1074 ≤ place
  lt_zpow : (num : ℚ) / den < 2 ^ (place + 53)
  zpow_le : place = -1074 ∨ (2 : ℚ) ^ (place + 52) ≤ num / den

theorem isLastPlace_lastPlace (hnum : num ≠ 0) (hden : 0 < den) :
    IsLastPlace num den (lastPlace num den) := by
  obtain ⟨hlow, hhigh⟩ := quotient_bounds hnum hden
  have hreached := reached_iff num hden ((num.log2 : Int) - den.log2 - 53)
  have hbounds : ∃ place, lastPlace num den = max place (-1074) ∧
      (num : ℚ) / den < 2 ^ (place + 53) ∧ (2 : ℚ) ^ (place + 52) ≤ num / den := by
    unfold lastPlace
    dsimp only
    generalize (if 0 ≤ (num.log2 : Int) - den.log2 - 53 then _ else _ : Bool) = reached
      at hreached ⊢
    split
    case isTrue h =>
      refine ⟨_, rfl, ?_, ?_⟩
      · convert hhigh using 2
        omega
      · convert hreached.1 h using 2
        omega
    case isFalse h =>
      refine ⟨_, rfl, ?_, ?_⟩
      · exact not_le.1 fun hle => h (hreached.2 hle)
      · convert hlow using 2
        omega
  obtain ⟨place, hplace, hbelow, habove⟩ := hbounds
  rw [hplace]
  rcases le_total (-1074) place with h | h
  · rw [max_eq_left h]
    exact ⟨h, hbelow, Or.inr habove⟩
  · rw [max_eq_right h]
    refine ⟨le_rfl, hbelow.trans_le ?_, Or.inl rfl⟩
    exact zpow_le_zpow_right₀ (by norm_num) (by omega)

/-- A significand behind an exponent field is read back, also if it has been rounded up to the next
power of two, which carries over into the field. -/
theorem value_ofBits {field sig : Nat} (hle : sig ≤ 2 * hiddenBit)
    (hnormal : hiddenBit ≤ sig ∨ field = 0) :
    (Parts.ofBits (field * hiddenBit + sig)).value = sig * 2 ^ ((field : ℤ) - 1074) := by
  have hpos : 0 < hiddenBit := by decide
  rcases Nat.lt_or_ge sig hiddenBit with hsmall | hlarge
  · obtain rfl : field = 0 := hnormal.resolve_left (Nat.not_le.2 hsmall)
    have hparts : Parts.ofBits (0 * hiddenBit + sig) = ⟨sig, -1074⟩ := by
      unfold Parts.ofBits
      rw [Nat.zero_mul, Nat.zero_add, Nat.div_eq_of_lt hsmall, Nat.mod_eq_of_lt hsmall]
      rfl
    rw [hparts]
    rfl
  · rcases Nat.lt_or_eq_of_le hle with hbelow | rfl
    · have hparts : Parts.ofBits (field * hiddenBit + sig) = ⟨sig, (field : ℤ) - 1074⟩ := by
        have hdiv : (field * hiddenBit + sig) / hiddenBit = field + 1 := by
          unfold hiddenBit at *
          omega
        have hmod : (field * hiddenBit + sig) % hiddenBit = sig - hiddenBit := by
          unfold hiddenBit at *
          omega
        unfold Parts.ofBits
        simp only [hdiv, hmod, Nat.add_eq_zero_iff, one_ne_zero, and_false, if_false]
        exact congrArg₂ Parts.mk (Nat.add_sub_cancel' hlarge) (by push_cast; ring)
      rw [hparts]
      rfl
    · have hparts : Parts.ofBits (field * hiddenBit + 2 * hiddenBit) =
          ⟨hiddenBit, (field : ℤ) - 1074 + 1⟩ := by
        have hdiv : (field * hiddenBit + 2 * hiddenBit) / hiddenBit = field + 2 := by
          rw [← Nat.add_mul, Nat.mul_div_cancel _ hpos]
        have hmod : (field * hiddenBit + 2 * hiddenBit) % hiddenBit = 0 := by
          rw [← Nat.add_mul, Nat.mul_mod_left]
        unfold Parts.ofBits
        simp only [hdiv, hmod, Nat.add_eq_zero_iff, OfNat.ofNat_ne_zero, and_false, if_false,
          Nat.add_zero]
        exact congrArg (Parts.mk hiddenBit) (by push_cast; ring)
      rw [hparts]
      change (hiddenBit : ℚ) * 2 ^ ((field : ℤ) - 1074 + 1) = _
      rw [zpow_add_one₀ (by norm_num)]
      push_cast
      ring

theorem zpow_pos_two (e : Int) : (0 : ℚ) < 2 ^ e := by
  positivity

namespace IsLastPlace

variable (h : IsLastPlace num den place) (hden : 0 < den)

include h hden

theorem significand_le : significand num den place ≤ 2 * hiddenBit := by
  refine Binary64.significand_le hden ?_
  rw [div_le_iff₀ (zpow_pos_two place), Nat.cast_mul, natCast_hiddenBit, Nat.cast_two,
    ← zpow_one_add₀ (by norm_num), ← zpow_add₀ (by norm_num)]
  convert h.lt_zpow.le using 2
  omega

theorem hiddenBit_le (hplace : place ≠ -1074) : hiddenBit ≤ significand num den place := by
  refine le_significand hden ?_
  rw [le_div_iff₀ (zpow_pos_two place), natCast_hiddenBit, ← zpow_add₀ (by norm_num), add_comm]
  exact h.zpow_le.resolve_left hplace

/-- As long as it is far from infinity, the number is the significand at its place. -/
theorem value_ofBits (hfinite : place ≤ 948) :
    (Parts.ofBits (min ((place + 1074).toNat * hiddenBit + significand num den place)
      infinityBits)).value = significand num den place * 2 ^ place := by
  have hle := h.significand_le hden
  have hlowest := h.lowest_le
  have hbelow : (place + 1074).toNat * hiddenBit + significand num den place ≤ infinityBits := by
    unfold infinityBits
    have hfield : (place + 1074).toNat ≤ 2022 := by omega
    have := Nat.mul_le_mul_right hiddenBit hfield
    omega
  have hnormal : hiddenBit ≤ significand num den place ∨ (place + 1074).toNat = 0 := by
    by_cases hplace : place = -1074
    · exact Or.inr (by omega)
    · exact Or.inl (h.hiddenBit_le hden hplace)
  rw [Nat.min_eq_left hbelow, Binary64.value_ofBits hle hnormal, Int.toNat_of_nonneg (by omega)]
  congr 2
  omega

end IsLastPlace

/-- A power of two in units of a place that is not above it. -/
theorem zpow_div_zpow {e : Int} (h : place ≤ e) :
    (2 : ℚ) ^ e / 2 ^ place = ((2 ^ (e - place).toNat : Nat) : ℚ) := by
  rw [← zpow_sub₀ (by norm_num), Nat.cast_pow, ← zpow_natCast, Int.toNat_of_nonneg (by omega)]
  rfl

namespace IsLastPlace

/-- The place of a number is not above a power of two that bounds the number. -/
theorem le_of_le_zpow {high : Int} (h : IsLastPlace num den place) (hlowest : -1074 ≤ high)
    (hhigh : (num : ℚ) / den ≤ 2 ^ high) : place ≤ high ∧ (place = -1074 ∨ place + 52 ≤ high) := by
  rcases h.zpow_le with rfl | hfull
  · exact ⟨hlowest, Or.inl rfl⟩
  · have hle : place + 52 ≤ high :=
      (zpow_le_zpow_iff_right₀ (by norm_num)).1 (hfull.trans hhigh)
    exact ⟨by omega, Or.inr hle⟩

end IsLastPlace

section Nearest

variable {low high : Int} (hnum : num ≠ 0) (hden : 0 < den)

include hnum hden

/-- A number up to a power of two is not rounded to more than that. -/
theorem value_nearestBits_le (hlowest : -1074 ≤ high) (hhighest : high ≤ 1000)
    (hhigh : (num : ℚ) / den ≤ 2 ^ high) :
    (Parts.ofBits (nearestBits num den)).value ≤ 2 ^ high := by
  have hplace := isLastPlace_lastPlace hnum hden
  rw [nearestBits_eq hnum]
  generalize lastPlace num den = place at hplace ⊢
  obtain ⟨hle, hfinite⟩ := hplace.le_of_le_zpow hlowest hhigh
  have hsig : significand num den place ≤ 2 ^ (high - place).toNat := by
    refine significand_le hden ?_
    rw [← zpow_div_zpow hle]
    gcongr
  rw [hplace.value_ofBits hden (by omega), ← le_div_iff₀ (zpow_pos_two place), zpow_div_zpow hle]
  exact_mod_cast hsig

/-- A number from a power of two on is not rounded to less than that. -/
theorem le_value_nearestBits (hlowest : -1074 ≤ low) (hlow : (2 : ℚ) ^ low ≤ num / den)
    (hhigh : (num : ℚ) / den ≤ 2 ^ (1000 : ℤ)) :
    (2 : ℚ) ^ low ≤ (Parts.ofBits (nearestBits num den)).value := by
  have hplace := isLastPlace_lastPlace hnum hden
  rw [nearestBits_eq hnum]
  generalize lastPlace num den = place at hplace ⊢
  obtain ⟨-, hfinite⟩ := hplace.le_of_le_zpow (by decide) hhigh
  have hpos := zpow_pos_two place
  rw [hplace.value_ofBits hden (by omega)]
  rcases le_or_gt place low with hle | hgt
  · have hsig : 2 ^ (low - place).toNat ≤ significand num den place := by
      refine le_significand hden ?_
      rw [← zpow_div_zpow hle]
      gcongr
    rw [← div_le_iff₀ hpos, zpow_div_zpow hle]
    exact_mod_cast hsig
  · -- The significand is at least one, and its place is beyond the power already.
    have hone : 1 ≤ significand num den place :=
      le_trans (by decide) (hplace.hiddenBit_le hden (by omega))
    calc (2 : ℚ) ^ low ≤ 2 ^ place := zpow_le_zpow_right₀ (by norm_num) hgt.le
      _ ≤ significand num den place * 2 ^ place :=
        le_mul_of_one_le_left hpos.le (by exact_mod_cast hone)

end Nearest

theorem nearestBits_lt_signBit (num den : Nat) : nearestBits num den < signBit := by
  have hlt : infinityBits < signBit := by decide
  unfold nearestBits
  split
  · decide
  · exact lt_of_le_of_lt (Nat.min_le_right _ _) hlt

theorem value_ofMagnitude {negative : Bool} {bits : Nat} (h : bits < signBit) :
    (ofMagnitude negative bits).value =
      if negative then -(Parts.ofBits bits).value else (Parts.ofBits bits).value := by
  have hsize : signBit = 9223372036854775808 := rfl
  rw [hsize] at h
  have hmagnitude : (ofMagnitude negative bits).magnitude = bits := by
    unfold magnitude ofMagnitude
    rw [UInt64.toNat_ofNat', hsize]
    cases negative <;> simp <;> omega
  have hnegative : (ofMagnitude negative bits).isNegative = negative := by
    unfold isNegative ofMagnitude
    rw [UInt64.toNat_ofNat', hsize]
    cases negative <;> simp <;> omega
  unfold value
  rw [hmagnitude, hnegative]

theorem rounded_eq (q : ℚ) :
    rounded q = if q < 0 then -(Parts.ofBits (nearestBits q.num.natAbs q.den)).value
      else (Parts.ofBits (nearestBits q.num.natAbs q.den)).value := by
  unfold rounded ofRat nearest
  rw [value_ofMagnitude (nearestBits_lt_signBit _ _)]
  simp only [decide_eq_true_eq]

theorem value_nonneg (p : Parts) : 0 ≤ p.value := by
  unfold Parts.value
  positivity

theorem abs_rounded (q : ℚ) :
    |rounded q| = (Parts.ofBits (nearestBits q.num.natAbs q.den)).value := by
  have hnonneg := value_nonneg (Parts.ofBits (nearestBits q.num.natAbs q.den))
  rw [rounded_eq]
  split
  · rw [abs_neg, abs_of_nonneg hnonneg]
  · rw [abs_of_nonneg hnonneg]

theorem abs_eq_natAbs_div (q : ℚ) : |q| = (q.num.natAbs : ℚ) / q.den := by
  rw [Rat.abs_def, Rat.divInt_eq_div]
  rfl

@[simp]
theorem rounded_zero : rounded 0 = 0 := by
  rw [← abs_eq_zero, abs_rounded]
  simp [nearestBits, Parts.ofBits, Parts.value]

theorem rounded_nonpos {q : ℚ} (h : q ≤ 0) : rounded q ≤ 0 := by
  rcases lt_or_eq_of_le h with hneg | rfl
  · rw [rounded_eq, if_pos hneg]
    exact neg_nonpos.2 (value_nonneg _)
  · rw [rounded_zero]

theorem abs_rounded_le {q : ℚ} {high : Int} (hlowest : -1074 ≤ high) (hhighest : high ≤ 1000)
    (h : |q| ≤ 2 ^ high) : |rounded q| ≤ 2 ^ high := by
  by_cases hq : q = 0
  · rw [hq, rounded_zero, abs_zero]
    exact (zpow_pos_two high).le
  · rw [abs_rounded]
    rw [abs_eq_natAbs_div] at h
    exact value_nearestBits_le (by simpa using hq) q.den_pos hlowest hhighest h

theorem le_rounded {q : ℚ} {low : Int} (hlowest : -1074 ≤ low) (hlow : 2 ^ low ≤ q)
    (hhigh : q ≤ 2 ^ (1000 : ℤ)) : 2 ^ low ≤ rounded q := by
  have hpos : 0 < q := lt_of_lt_of_le (zpow_pos_two low) hlow
  have hsize : q = (q.num.natAbs : ℚ) / q.den := by
    rw [← abs_eq_natAbs_div, abs_of_pos hpos]
  rw [rounded_eq, if_neg (not_lt.2 hpos.le)]
  refine le_value_nearestBits (by simpa using hpos.ne') q.den_pos hlowest ?_ ?_
  · exact hsize ▸ hlow
  · exact hsize ▸ hhigh

end Almanac.Binary64

import Almanac.Period.Conversion
import Almanac.Proofs.Loop
import Almanac.Proofs.Period.Order

/-!
How many whole months or years fit between two instants. The difference of the months is a guess
that knows nothing of the day and the time of day. The loops that correct it end at the greatest
number of units that is not too many, wherever short months cut off the day.
-/

namespace Almanac.Period

open Calendar

section Loops

variable {base : Nat → Option Instant} {limit : Instant} {index : Nat}

/-- That many units lead beyond the calendar or beyond the limit. None at all never do. -/
def IsTooMany (base : Nat → Option Instant) (limit : Instant) (index : Nat) : Prop :=
  0 < index ∧ ∀ i, base index = some i → limit < i

/-- One unit more does not lead beyond the limit. -/
def HasRoom (base : Nat → Option Instant) (limit : Instant) (index : Nat) : Prop :=
  ∃ i, base (index + 1) = some i ∧ i ≤ limit

theorem loopEnds_lastNotAfter (base : Nat → Option Instant) (limit : Instant) (index : Nat) :
    ∃ turns, LoopEnds (IsTooMany base limit) (· - 1) turns index
      (lastNotAfter base limit index) := by
  induction index with
  | zero => exact ⟨0, .done fun h => Nat.lt_irrefl 0 h.1⟩
  | succ index ih =>
    obtain ⟨turns, hrest⟩ := ih
    unfold lastNotAfter
    split
    case h_1 reached hreached =>
      split
      case isTrue hle =>
        refine ⟨0, .done fun h => ?_⟩
        exact Instant.not_le.2 (h.2 reached hreached) hle
      case isFalse hlt =>
        refine ⟨turns + 1, .turn ⟨Nat.succ_pos index, fun i hi => ?_⟩ hrest⟩
        cases hreached.symm.trans hi
        exact Instant.not_le.1 hlt
    case h_2 hnone =>
      refine ⟨turns + 1, .turn ⟨Nat.succ_pos index, fun i hi => ?_⟩ hrest⟩
      cases hnone.symm.trans hi

/-- However many further units are allowed for, there is no going on without room. -/
theorem extendNotAfter_of_not_hasRoom (h : ¬ HasRoom base limit index) (fuel : Nat) :
    extendNotAfter base limit fuel index = index := by
  cases fuel with
  | zero => rfl
  | succ fuel =>
    unfold extendNotAfter
    split
    case h_1 reached hreached =>
      rw [if_neg]
      exact fun hle => h ⟨reached, hreached, hle⟩
    case h_2 => rfl

end Loops

variable {start stop i : Instant} {months count : Nat}

/-- The numbers of units that do not lead beyond the instant. -/
def fittingUnits (months : Nat) (start stop : Instant) : Set Nat :=
  {count | ∃ i, unitsLater? start months count = some i ∧ i ≤ stop}

/-- Months are the repetitions of a step of one month. -/
theorem addMonths?_eq_some_iff_reaches :
    start.addMonths? count = some i ↔ (Step.mk 1 0).Reaches start count i := by
  rw [Instant.addMonths?_eq_some_iff]
  simp only [Step.Reaches, Step.secondAfter, Nat.mul_one, Int.mul_zero, Int.add_zero]

/-- Units are the repetitions of a step of their months. -/
theorem unitsLater?_eq_some_iff_reaches :
    unitsLater? start months count = some i ↔ (Step.mk months 0).Reaches start count i := by
  unfold unitsLater?
  rw [Instant.addMonths?_eq_some_iff]
  simp only [Step.Reaches, Step.secondAfter, Int.mul_zero, Int.add_zero]

theorem fittingUnits_eq_countsUpTo (hstart : ¬ start.IsLeap) :
    fittingUnits months start stop = (Step.mk months 0).countsUpTo start stop := by
  ext count
  rw [Step.mem_countsUpTo_iff hstart (Int.le_refl 0)]
  simp only [fittingUnits, Set.mem_ofPred_eq, unitsLater?_eq_some_iff_reaches]

theorem mem_fittingUnits_iff (hstart : ¬ start.IsLeap) :
    count ∈ fittingUnits months start stop ↔
      count * months ∈ (Step.mk 1 0).countsUpTo start stop := by
  rw [Step.mem_countsUpTo_iff hstart (Int.le_refl 0)]
  simp only [fittingUnits, Set.mem_ofPred_eq, unitsLater?, addMonths?_eq_some_iff_reaches]

/-- The first guess is the estimate for a step of one unit. -/
theorem estimate_unit (hmonths : 0 < months) (hle : start ≤ stop) :
    (Step.mk months 0).estimate start stop = (stop.monthsSince start / months).toNat := by
  by_cases hlt : start < stop
  · exact Step.estimate_of_months_ne_zero hlt (Nat.ne_of_gt hmonths)
  · obtain rfl : start = stop := Instant.le_antisymm hle (Instant.not_lt.1 hlt)
    rw [Step.estimate_of_le hle, Instant.monthsSince, Int.sub_self, Int.zero_ediv, Int.toNat_zero]

section Units

variable (hmonths : 0 < months) (hstart : ¬ start.IsLeap)

include hmonths

theorem isZero_unit : (Step.mk months 0).isZero = false := by
  simp [Step.isZero, Nat.ne_of_gt hmonths]

include hstart

/-- More units than the greatest number that fits are too many, and no fewer. -/
theorem isTooMany_iff {last : Nat} (hlast : IsGreatest (fittingUnits months start stop) last) :
    IsTooMany (unitsLater? start months) stop count ↔ last < count := by
  constructor
  · rintro ⟨-, hbeyond⟩
    refine Nat.not_le.1 fun hle => ?_
    have hmem := hlast.1
    rw [fittingUnits_eq_countsUpTo hstart] at hmem
    have hfits := Step.mem_countsUpTo_of_le (isZero_unit hmonths) (Int.le_refl 0) hstart hmem hle
    rw [← fittingUnits_eq_countsUpTo hstart] at hfits
    obtain ⟨i, hi, hbefore⟩ := hfits
    exact Instant.not_lt.2 hbefore (hbeyond i hi)
  · intro hlt
    refine ⟨Nat.zero_lt_of_lt hlt, fun i hi => Instant.not_le.1 fun hbefore => ?_⟩
    exact Nat.not_le.2 hlt (hlast.2 ⟨i, hi, hbefore⟩)

/-- Where the guess is not too low, the loops end at the greatest number of units that fits. -/
theorem loopEnds_wholeUnits {last : Nat}
    (hlast : IsGreatest (fittingUnits months start stop) last)
    (hguess : last ≤ (stop.monthsSince start / months).toNat) :
    wholeUnits months start stop = last ∧
      ∃ down up low, LoopEnds (IsTooMany (unitsLater? start months) stop) (· - 1) down
          (stop.monthsSince start / months).toNat low ∧
        LoopEnds (HasRoom (unitsLater? start months) stop) (· + 1) up low
          (wholeUnits months start stop) := by
  have hcount := LoopEnds.countDown hguess
    (fun k hlt _ => (isTooMany_iff hmonths hstart hlast).2 hlt)
    (fun h => Nat.lt_irrefl last ((isTooMany_iff hmonths hstart hlast).1 h))
  obtain ⟨down, hdown⟩ := loopEnds_lastNotAfter (unitsLater? start months) stop
    (stop.monthsSince start / months).toNat
  obtain ⟨-, hsame⟩ := hdown.unique hcount
  have hfull : ¬ HasRoom (unitsLater? start months) stop last :=
    fun hroom => Nat.not_succ_le_self last (hlast.2 hroom)
  have hwhole : wholeUnits months start stop = last := by
    unfold wholeUnits
    dsimp only
    rw [hsame, extendNotAfter_of_not_hasRoom hfull]
  refine ⟨hwhole, _, 0, last, hcount, ?_⟩
  rw [hwhole]
  exact .done hfull

end Units

/-- The loops that look for the number of whole units end. What they end with is the greatest number
of units that does not lead beyond the later instant, which therefore lies in the span from this
number of units to one more. A number of whole months is counted without loss or gain. -/
theorem wholeUnits_fit (hmonths : 0 < months) (hstart : ¬ start.IsLeap) (hstop : ¬ stop.IsLeap)
    (hle : start ≤ stop) :
    (∃ down up low, LoopEnds (IsTooMany (unitsLater? start months) stop) (· - 1) down
        (stop.monthsSince start / months).toNat low ∧
      LoopEnds (HasRoom (unitsLater? start months) stop) (· + 1) up low
        (wholeUnits months start stop)) ∧
    IsGreatest (fittingUnits months start stop) (wholeUnits months start stop) ∧
    (∃ lower, unitsLater? start months (wholeUnits months start stop) = some lower ∧
      lower ≤ stop ∧
      ∀ upper, unitsLater? start months (wholeUnits months start stop + 1) = some upper →
        stop < upper) ∧
    ∀ n, start.addMonths? n = some stop → wholeUnits months start stop = n / months := by
  have hforward := isZero_unit hmonths
  obtain ⟨last, hlast⟩ := Step.exists_isGreatest_countsUpTo hforward (Int.le_refl 0) hstart hle
  obtain ⟨hguess, -⟩ :=
    Step.estimate_bounds hforward (Int.le_refl 0) hstart hstop hle hlast
  rw [estimate_unit hmonths hle] at hguess
  rw [← fittingUnits_eq_countsUpTo hstart] at hlast
  obtain ⟨rfl, hloops⟩ := loopEnds_wholeUnits hmonths hstart hlast hguess
  obtain ⟨lower, hlower, hbefore⟩ := hlast.1
  refine ⟨hloops, hlast, ⟨lower, hlower, hbefore, fun upper hupper => ?_⟩, fun n hn => ?_⟩
  · exact ((isTooMany_iff hmonths hstart hlast).2 (Nat.lt_succ_self _)).2 upper hupper
  · have hmonth := Step.isGreatest_countsUpTo (isZero_unit Nat.one_pos) (Int.le_refl 0) hstart
      (addMonths?_eq_some_iff_reaches.1 hn)
    refine hlast.unique ⟨(mem_fittingUnits_iff hstart).2 ?_, fun k hk => ?_⟩
    · exact Step.mem_countsUpTo_of_le (isZero_unit Nat.one_pos) (Int.le_refl 0) hstart hmonth.1
        (Nat.div_mul_le_self n months)
    · exact (Nat.le_div_iff_mul_le hmonths).2 (hmonth.2 ((mem_fittingUnits_iff hstart).1 hk))

/-- Thirteen months from the end of January 2023 it is the end of February 2024: thirteen months,
and one year. -/
theorem wholeUnits_fit_end_of_january :
    let start := Instant.midnight 19388 (by decide)
    let stop := Instant.midnight 19782 (by decide)
    ¬ start.IsLeap ∧ ¬ stop.IsLeap ∧ start ≤ stop ∧ start.addMonths? 13 = some stop ∧
      wholeUnits 1 start stop = 13 ∧ wholeUnits 12 start stop = 1 ∧
      IsGreatest (fittingUnits 12 start stop) (wholeUnits 12 start stop) := by
  intro start stop
  have hstart : ¬ start.IsLeap := by decide
  have hstop : ¬ stop.IsLeap := by decide
  have hle : start ≤ stop := by decide
  have hmonths : start.addMonths? 13 = some stop := by decide +kernel
  obtain ⟨-, -, -, hcount⟩ := wholeUnits_fit (by decide : 0 < 1) hstart hstop hle
  obtain ⟨-, hgreatest, -, hyears⟩ := wholeUnits_fit (by decide : 0 < 12) hstart hstop hle
  exact ⟨hstart, hstop, hle, hmonths, hcount 13 hmonths, hyears 13 hmonths, hgreatest⟩

end Almanac.Period

import Almanac.Proofs.Loop
import Almanac.Proofs.Occurrence.Candidates
import Almanac.Proofs.Period.Order

/-!
How much the search for the first candidate has to correct the estimate that it starts from. Where
months and seconds do not mix, it never has to go back and goes forward once at most, however far
the time is from the start.
-/

namespace Almanac.Occurrence

open Calendar Period

variable {s : Step} {start time : Instant}

/-- The search goes back from an index if the repetition before it is after the time as well. -/
def GoesBack (s : Step) (start time : Instant) (index : Nat) : Prop :=
  1 < index ∧ ∃ i, s.nth? start ((index - 1 : Nat) : Int) = some i ∧ time < i

theorem loopEnds_stepBack (s : Step) (start time : Instant) (estimate : Nat) :
    ∃ turns, LoopEnds (GoesBack s start time) (· - 1) turns (max estimate 1)
      (stepBack s start time estimate) := by
  have hfirst : ¬ GoesBack s start time 1 := fun h => Nat.lt_irrefl 1 h.1
  induction estimate using stepBack.induct s start time with
  | case1 =>
    rw [stepBack]
    exact ⟨0, .done hfirst⟩
  | case2 =>
    rw [stepBack]
    exact ⟨0, .done hfirst⟩
  | case3 index reached hreached hlt ih =>
    obtain ⟨turns, hrest⟩ := ih
    have hmax : max index.succ.succ 1 - 1 = max (index + 1) 1 := by omega
    rw [stepBack, hreached]
    simp only [hlt, if_true]
    refine ⟨turns + 1, .turn ⟨by omega, reached, hreached, hlt⟩ ?_⟩
    rwa [hmax]
  | case4 index reached hreached hlt =>
    rw [stepBack, hreached]
    simp only [hlt, if_false]
    refine ⟨0, .done ?_⟩
    rintro ⟨-, i, hi, hafter⟩
    cases hreached.symm.trans hi
    exact hlt hafter
  | case5 index hnone =>
    rw [stepBack, hnone]
    refine ⟨0, .done ?_⟩
    rintro ⟨-, i, hi, -⟩
    cases hnone.symm.trans hi

/-- The search forward ends, and what it ends with counts if the calendar has an instant there. -/
theorem loopEnds_stepForward? (hforward : s.isZero = false) (start time : Instant) (index : Nat) :
    ∃ turns last, LoopEnds (· ∈ s.countsUpTo start time) (· + 1) turns index last ∧
      stepForward? s start time hforward index =
        if (s.nth? start last).isSome then some last else none := by
  induction index using stepForward?.induct s start time hforward with
  | case1 index reached hreached hle ih =>
    obtain ⟨turns, last, hrest, hfound⟩ := ih
    rw [stepForward?_of_eq_some hforward hreached, if_pos hle]
    exact ⟨turns + 1, last, .turn ⟨reached, hreached, hle⟩ hrest, hfound⟩
  | case2 index reached hreached hle =>
    rw [stepForward?_of_eq_some hforward hreached, if_neg hle]
    refine ⟨0, index, .done ?_, by rw [hreached]; rfl⟩
    rintro ⟨i, hi, hbefore⟩
    cases hreached.symm.trans hi
    exact hle hbefore
  | case3 index hnone =>
    rw [stepForward?_of_eq_none hforward hnone]
    refine ⟨0, index, .done ?_, by rw [hnone]; rfl⟩
    rintro ⟨i, hi, -⟩
    cases hnone.symm.trans hi

section Forward

variable {last index : Nat} (hforward : s.isZero = false) (hseconds : 0 ≤ s.seconds)
  (hstart : ¬ start.IsLeap) (hlast : IsGreatest (s.countsUpTo start time) last)

include hforward hseconds hstart hlast

/-- The search does not go back from the last repetition up to the time, nor from the next. -/
theorem not_goesBack (hle : index ≤ last + 1) : ¬ GoesBack s start time index := by
  rintro ⟨hpos, i, hi, hafter⟩
  have hat := (Step.nth?_eq_some_iff hstart hseconds).1 hi
  have := (Step.lt_iff_of_isGreatest hforward hseconds hstart hlast hat).1 hafter
  omega

/-- It goes forward to the next one after the last. -/
theorem loopEnds_forward (hle : index ≤ last + 1) :
    LoopEnds (· ∈ s.countsUpTo start time) (· + 1) (last + 1 - index) index (last + 1) := by
  apply LoopEnds.countUp hle
  · intro k _ hlt
    exact Step.mem_countsUpTo_of_le hforward hseconds hstart hlast.1 (Nat.le_of_lt_succ hlt)
  · intro hnext
    exact Nat.not_succ_le_self last (hlast.2 hnext)

end Forward

namespace Candidates

/-- The estimate against the last repetition up to the time: it is never too low, right where there
are no months, and too high by one at most where there are no seconds. In these two cases the search
for the first candidate never goes back and goes forward at most once, to the next repetition. -/
theorem estimate_corrected_once (e : Interval) {start time : Instant} (stop : Option Instant)
    (hforward : e.step.isZero = false) (hstart : ¬ start.IsLeap) (htime : ¬ time.IsLeap)
    (hle : start ≤ time) :
    ∃ last, IsGreatest (e.step.countsUpTo start time) last ∧
      last ≤ e.step.estimate start time ∧
      (e.step.months = 0 → e.step.estimate start time = last) ∧
      (e.step.seconds = 0 → e.step.estimate start time ≤ last + 1) ∧
      (e.step.months = 0 ∨ e.step.seconds = 0 →
        LoopEnds (GoesBack e.step start time) (· - 1) 0 (max (e.step.estimate start time) 1)
          (stepBack e.step start time (e.step.estimate start time)) ∧
        ∃ turns ≤ 1, LoopEnds (· ∈ e.step.countsUpTo start time) (· + 1) turns
            (stepBack e.step start time (e.step.estimate start time)) (last + 1) ∧
          (ofInterval e start time stop).index =
            if (e.step.nth? start ((last + 1 : Nat) : Int)).isSome then some (last + 1)
            else none) := by
  have hseconds := e.step_seconds_nonneg
  obtain ⟨last, hlast⟩ := Step.exists_isGreatest_countsUpTo hforward hseconds hstart hle
  obtain ⟨hlow, hexact, hclose⟩ :=
    Step.estimate_bounds hforward hseconds hstart htime hle hlast
  refine ⟨last, hlast, hlow, hexact, hclose, fun huniform => ?_⟩
  have hhigh : e.step.estimate start time ≤ last + 1 := by
    rcases huniform with hmonths | hnone
    · have := hexact hmonths
      omega
    · exact hclose hnone
  have hindex : max (e.step.estimate start time) 1 ≤ last + 1 := by omega
  obtain ⟨back, hback⟩ := loopEnds_stepBack e.step start time (e.step.estimate start time)
  have hstays : ¬ GoesBack e.step start time (max (e.step.estimate start time) 1) :=
    not_goesBack hforward hseconds hstart hlast hindex
  obtain ⟨rfl, hsame⟩ := hback.unique (.done hstays)
  refine ⟨hback, ?_⟩
  rw [hsame]
  have hahead := loopEnds_forward hforward hseconds hstart hlast hindex
  refine ⟨_, by omega, hahead, ?_⟩
  obtain ⟨forward, final, hfinal, hfound⟩ := loopEnds_stepForward? hforward start time
    (max (e.step.estimate start time) 1)
  obtain ⟨-, rfl⟩ := hfinal.unique hahead
  simp only [ofInterval, ofStep, hforward, dite_true, hsame]
  exact hfound

/-- Monthly from the end of January 1970, in the middle of March: by the months alone two steps are
over, but the second leads to the end of March. -/
theorem estimate_corrected_once_end_of_january :
    let e : Interval := .amount ⟨1, .month⟩
    let start := Instant.midnight 30 (by decide)
    let time := Instant.midnight 73 (by decide)
    e.step.isZero = false ∧ ¬ start.IsLeap ∧ ¬ time.IsLeap ∧ start ≤ time ∧
      e.step.seconds = 0 ∧ e.step.estimate start time = 2 ∧
      ∃ last, IsGreatest (e.step.countsUpTo start time) last ∧ last ≤ 2 ∧ 2 ≤ last + 1 ∧
        LoopEnds (GoesBack e.step start time) (· - 1) 0 2 2 ∧
        ∃ turns ≤ 1, LoopEnds (· ∈ e.step.countsUpTo start time) (· + 1) turns 2 (last + 1) := by
  intro e start time
  have hforward : e.step.isZero = false := by decide
  have hstart : ¬ start.IsLeap := by decide
  have htime : ¬ time.IsLeap := by decide
  have hle : start ≤ time := by decide
  have hnone : e.step.seconds = 0 := by decide
  have hestimate : e.step.estimate start time = 2 := by decide +kernel
  have hback : stepBack e.step start time 2 = 2 := by decide +kernel
  obtain ⟨last, hlast, hlow, -, hclose, hloops⟩ :=
    estimate_corrected_once e none hforward hstart htime hle
  obtain ⟨hstays, turns, hturns, hahead, -⟩ := hloops (Or.inr hnone)
  rw [hestimate] at hlow hclose hstays hahead
  rw [hback] at hstays hahead
  exact ⟨hforward, hstart, htime, hle, hnone, hestimate, last, hlast, hlow, hclose hnone, hstays,
    turns, hturns, hahead⟩

end Candidates

end Almanac.Occurrence

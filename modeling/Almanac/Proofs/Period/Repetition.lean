import Almanac.Period.Interval
import Almanac.Period.Range
import Almanac.Proofs.Calendar.Instant
import Almanac.Proofs.Calendar.Month

/-!
The instants that the repetitions of a step lead to, on a line of seconds without an end. A step
taken some number of times has a result exactly when the calendar has the second that it leads to,
and the repetitions of a step forward are in order.
-/

namespace Almanac.Period

open Calendar

namespace Step

/-- The second that `count` steps from `start` lead to: all the months first, the day cut off at
the end of a short month, and then all the seconds. -/
def secondAfter (s : Step) (start : Instant) (count : Nat) : Int :=
  86400 * shiftMonths start.date.day (count * s.months : Nat) + start.timeOfDay.second +
    count * s.seconds

/-- The instant is the one that `count` steps from `start` lead to. -/
def Reaches (s : Step) (start : Instant) (count : Nat) (i : Instant) : Prop :=
  i.second = s.secondAfter start count ∧ i.nano = start.nano

instance (s : Step) (start : Instant) (count : Nat) (i : Instant) :
    Decidable (s.Reaches start count i) := by
  unfold Reaches
  infer_instance

variable {s : Step} {start : Instant}

theorem secondAfter_zero (s : Step) (start : Instant) : s.secondAfter start 0 = start.second := by
  have := start.second_eq_day_add_timeOfDay
  simp only [secondAfter, Nat.zero_mul, Int.natCast_zero, shiftMonths_zero]
  omega

theorem reaches_zero (s : Step) (start : Instant) : s.Reaches start 0 start :=
  ⟨(secondAfter_zero s start).symm, rfl⟩

theorem start_second_le_secondAfter (hseconds : 0 ≤ s.seconds) (start : Instant) (count : Nat) :
    start.second ≤ s.secondAfter start count := by
  have hmove : 0 ≤ (count : Int) * s.seconds := Int.mul_nonneg (by omega) hseconds
  have hday := le_shiftMonths start.date.day (Int.natCast_nonneg (count * s.months))
  have := start.second_eq_day_add_timeOfDay
  unfold secondAfter
  omega

theorem Reaches.not_isLeap {count : Nat} {i : Instant} (h : s.Reaches start count i)
    (hstart : ¬ start.IsLeap) : ¬ i.IsLeap := by
  unfold Instant.IsLeap at *
  rw [h.2]
  exact hstart

/-- No repetition of a step leads back. -/
theorem Reaches.start_le {count : Nat} {i : Instant} (hi : s.Reaches start count i)
    (hseconds : 0 ≤ s.seconds) : start ≤ i := by
  have hsecond := start_second_le_secondAfter hseconds start count
  rw [← hi.1] at hsecond
  have hnano := hi.2
  simp only [Instant.le_def, Instant.position]
  omega

theorem Reaches.eq {count : Nat} {a b : Instant} (ha : s.Reaches start count a)
    (hb : s.Reaches start count b) : a = b :=
  Instant.ext_second (ha.1.trans hb.1.symm) (ha.2.trans hb.2.symm)

/-- Up to the end of the calendar there is an instant at every second. -/
theorem exists_reaches {count : Nat} (hstart : ¬ start.IsLeap) (hseconds : 0 ≤ s.seconds)
    (hlast : s.secondAfter start count ≤ lastSecond) : ∃ i, s.Reaches start count i := by
  have hfirst := start.firstSecond_le
  have hle := start_second_le_secondAfter hseconds start count
  have hnano : start.nano < 1000000000 := by
    unfold Instant.IsLeap at hstart
    omega
  exact ⟨⟨_, start.nano, by omega, hlast, start.nano_lt, by omega⟩, rfl, rfl⟩

/-- The months never lead beyond the calendar if the whole step does not, so the two moves that a
step is made of both succeed. -/
theorem nth?_eq_some_iff {count : Nat} {i : Instant} (hstart : ¬ start.IsLeap)
    (hseconds : 0 ≤ s.seconds) : s.nth? start count = some i ↔ s.Reaches start count i := by
  have hmonths : ((count : Int) * s.months).toNat = count * s.months := by
    rw [← Int.natCast_mul, Int.toNat_natCast]
  have hforward : ¬ (count : Int) * s.months < 0 := by
    rw [← Int.natCast_mul]
    omega
  unfold Reaches secondAfter
  rw [nth?_eq, if_neg hforward, hmonths, Option.bind_eq_some_iff]
  constructor
  · rintro ⟨shifted, hshifted, hi⟩
    obtain ⟨hsecond, hnano⟩ := Instant.addMonths?_eq_some_iff.1 hshifted
    have hleap : ¬ shifted.IsLeap := by
      unfold Instant.IsLeap at *
      omega
    obtain ⟨hisecond, hinano⟩ := (Instant.addSeconds?_eq_some_iff hleap).1 hi
    exact ⟨by omega, by omega⟩
  · rintro ⟨hsecond, hnano⟩
    have hmove : 0 ≤ (count : Int) * s.seconds := Int.mul_nonneg (by omega) hseconds
    have hfirst := start.firstSecond_le
    have hlast := i.le_lastSecond
    have hmonthsOnly := start_second_le_secondAfter (s := ⟨s.months, 0⟩) (Int.le_refl 0) start count
    simp only [secondAfter, Int.mul_zero, Int.add_zero] at hmonthsOnly
    have hnanoLt : start.nano < 1000000000 := by
      unfold Instant.IsLeap at hstart
      omega
    let shifted : Instant :=
      ⟨86400 * shiftMonths start.date.day (count * s.months : Nat) + start.timeOfDay.second,
        start.nano, by omega, by omega, start.nano_lt, by omega⟩
    have hleap : ¬ shifted.IsLeap := hstart
    exact ⟨shifted, Instant.addMonths?_eq_some_iff.2 ⟨rfl, rfl⟩,
      (Instant.addSeconds?_eq_some_iff hleap).2 ⟨hsecond, hnano⟩⟩

/-- Every further step leads further: a month more than it loses to a short month, or the seconds
alone where there are no months. -/
theorem secondAfter_lt_secondAfter (hforward : s.isZero = false) (hseconds : 0 ≤ s.seconds)
    (start : Instant) {few many : Nat} (hlt : few < many) :
    s.secondAfter start few < s.secondAfter start many := by
  have hmove : (few : Int) * s.seconds ≤ many * s.seconds :=
    Int.mul_le_mul_of_nonneg_right (by omega) hseconds
  unfold secondAfter
  by_cases hzero : s.months = 0
  · have hpos : 0 < s.seconds := by
      simp only [isZero, hzero, decide_true, Bool.true_and, decide_eq_false_iff_not] at hforward
      omega
    have hmove : (few : Int) * s.seconds < many * s.seconds :=
      Int.mul_lt_mul_of_pos_right (by omega) hpos
    simp only [hzero, Nat.mul_zero]
    omega
  · have hmonths : few * s.months < many * s.months := Nat.mul_lt_mul_of_pos_right hlt (by omega)
    have hday := shiftMonths_lt_shiftMonths start.date.day (Int.ofNat_lt.2 hmonths)
    omega

section Forward

variable (hforward : s.isZero = false) (hseconds : 0 ≤ s.seconds)

include hforward hseconds

theorem Reaches.lt {few many : Nat} {a b : Instant} (ha : s.Reaches start few a)
    (hb : s.Reaches start many b) (hlt : few < many) : a < b := by
  rw [Instant.lt_iff_second_lt (ha.2.trans hb.2.symm), ha.1, hb.1]
  exact secondAfter_lt_secondAfter hforward hseconds start hlt

theorem Reaches.le {few many : Nat} {a b : Instant} (ha : s.Reaches start few a)
    (hb : s.Reaches start many b) (hle : few ≤ many) : a ≤ b := by
  rcases Nat.lt_or_eq_of_le hle with hlt | rfl
  · exact Instant.le_of_lt (ha.lt hforward hseconds hb hlt)
  · rw [ha.eq hb]
    exact Instant.le_refl b

/-- The calendar ends for all later repetitions once it ends for one. -/
theorem Reaches.exists_of_le {few many : Nat} {b : Instant} (hstart : ¬ start.IsLeap)
    (hb : s.Reaches start many b) (hle : few ≤ many) : ∃ a, s.Reaches start few a := by
  rcases Nat.lt_or_eq_of_le hle with hlt | rfl
  · apply exists_reaches hstart hseconds
    have hbefore := secondAfter_lt_secondAfter hforward hseconds start hlt
    have hlast := b.le_lastSecond
    rw [hb.1] at hlast
    omega
  · exact ⟨b, hb⟩

theorem Reaches.count_lt {count : Nat} {i : Instant} (hstart : ¬ start.IsLeap)
    (hi : s.Reaches start count i) : count < maxCount :=
  count_lt_of_nth?_eq_some hforward ((nth?_eq_some_iff hstart hseconds).2 hi)

end Forward

/-- A step that does not lead forward leads nowhere else than to the start. -/
theorem Reaches.eq_start_of_isZero {count : Nat} {i : Instant} (hzero : s.isZero = true)
    (hseconds : 0 ≤ s.seconds) (hi : s.Reaches start count i) : i = start := by
  simp only [isZero, Bool.and_eq_true, decide_eq_true_eq] at hzero
  have hnone : s.seconds = 0 := by omega
  have hsame : s.secondAfter start count = s.secondAfter start 0 := by
    simp only [secondAfter, hzero.1, hnone, Nat.mul_zero, Int.mul_zero]
  exact Instant.ext_second (hi.1.trans (hsame.trans (secondAfter_zero s start))) hi.2

theorem ofUnits_seconds_nonneg (unit : TimeUnit) (number : Nat) :
    0 ≤ (ofUnits unit number).seconds := by
  unfold ofUnits
  cases unit.length with
  | seconds count => exact Int.natCast_nonneg _
  | months count => exact Int.le_refl 0

theorem ofUnits_months_or_seconds_eq_zero (unit : TimeUnit) (number : Nat) :
    (ofUnits unit number).months = 0 ∨ (ofUnits unit number).seconds = 0 := by
  unfold ofUnits
  cases unit.length with
  | seconds count => exact Or.inl rfl
  | months count => exact Or.inr rfl

end Step

namespace Interval

theorem step_seconds_nonneg (e : Interval) : 0 ≤ e.step.seconds := by
  cases e with
  | amount a => exact Step.ofUnits_seconds_nonneg a.unit a.number
  | duration d =>
    simp only [Interval.step, Duration.step]
    omega

/-- An amount, or a duration that has only parts of fixed length or only parts that follow the
calendar. -/
def IsUniform : Interval → Prop
  | amount _ => True
  | duration d =>
    (d.years = 0 ∧ d.months = 0) ∨
      (d.weeks = 0 ∧ d.days = 0 ∧ d.hours = 0 ∧ d.minutes = 0 ∧ d.seconds = 0)

instance (e : Interval) : Decidable e.IsUniform := by
  cases e <;> unfold IsUniform <;> infer_instance

theorem IsUniform.step {e : Interval} (h : e.IsUniform) :
    e.step.months = 0 ∨ e.step.seconds = 0 := by
  cases e with
  | amount a => exact Step.ofUnits_months_or_seconds_eq_zero a.unit a.number
  | duration d =>
    rcases h with ⟨hyears, hmonths⟩ | ⟨hweeks, hdays, hhours, hminutes, hseconds⟩
    · left
      simp [Interval.step, Duration.step, hyears, hmonths]
    · right
      simp [Interval.step, Duration.step, hweeks, hdays, hhours, hminutes, hseconds]

end Interval

end Almanac.Period

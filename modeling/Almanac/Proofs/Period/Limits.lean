import Almanac.Proofs.Literal.Duration
import Almanac.Proofs.Period.Repetition

/-!
The step of an interval against the months and seconds that the interval stands for, however many.
A step stops at the limits of words. It is exact all the same: a step at one of the limits leads
beyond the calendar at once, and so does the interval itself.
-/

namespace Almanac.Period

open Calendar

namespace Step

/-- The step that is left where the parts stop at their limits. -/
def capped (s : Step) : Step where
  months := min s.months maxStepMonths
  seconds := min s.seconds maxStepSeconds

variable {s : Step} {start i : Instant} {count : Nat}

/-- A step that is taken and stays in the calendar is far below the limits. -/
theorem Reaches.lt_limits (hi : s.Reaches start count i) (hseconds : 0 ≤ s.seconds)
    (hpos : 0 < count) : s.months < maxStepMonths ∧ s.seconds < maxStepSeconds := by
  have hsecond : i.second = s.secondAfter start count := hi.1
  have hmonthsOnly := start_second_le_secondAfter (s := ⟨s.months, 0⟩) (Int.le_refl 0) start count
  have hmove : s.seconds ≤ count * s.seconds := by
    simpa only [Int.one_mul] using
      Int.mul_le_mul_of_nonneg_right (show (1 : Int) ≤ count by omega) hseconds
  have hmonths : s.months ≤ count * s.months := Nat.le_mul_of_pos_left _ hpos
  have hfirst := start.firstSecond_le
  have hlast := i.le_lastSecond
  have htime := start.timeOfDay.second_lt
  simp only [secondAfter, Int.mul_zero, Int.add_zero] at hsecond hmonthsOnly
  unfold firstSecond at hfirst
  unfold lastSecond at hlast
  have hday : shiftMonths start.date.day (count * s.months : Nat) ≤ lastDay := by
    unfold lastDay
    omega
  have hfew := months_le_of_shiftMonths_le start.date.firstDay_le hday
  unfold maxStepMonths maxStepSeconds
  omega

/-- Stopping at the limits changes nothing about where repetitions lead within the calendar. -/
theorem reaches_capped_iff (hseconds : 0 ≤ s.seconds) :
    s.capped.Reaches start count i ↔ s.Reaches start count i := by
  have hcapped : 0 ≤ s.capped.seconds := by
    simp only [capped, maxStepSeconds]
    omega
  rcases Nat.eq_zero_or_pos count with rfl | hpos
  · simp only [Reaches, secondAfter_zero]
  constructor
  · intro hi
    obtain ⟨hmonths, hlimit⟩ := hi.lt_limits hcapped hpos
    have hsame : s.capped = s := by
      simp only [capped] at hmonths hlimit ⊢
      congr <;> omega
    rwa [hsame] at hi
  · intro hi
    obtain ⟨hmonths, hlimit⟩ := hi.lt_limits hseconds hpos
    have hsame : s.capped = s := by
      simp only [capped]
      congr <;> omega
    rwa [hsame]

end Step

/-- The sum of two numbers, if a signed word of 64 bits holds it. -/
def sum64? (a b : Int) : Option Int :=
  if Text.IsWord64 (a + b) then some (a + b) else none

variable {β : Type} {a b : Int}

theorem sum64?_eq_some (hnonneg : 0 ≤ a + b) (hle : a + b ≤ 9223372036854775807) :
    sum64? a b = some (a + b) := by
  unfold sum64?
  rw [if_pos ⟨by omega, hle⟩]

theorem bind_sum64? {next : Int → Option β} (hnonneg : 0 ≤ a + b)
    (hle : a + b ≤ 9223372036854775807) : sum64? a b >>= next = next (a + b) := by
  rw [sum64?_eq_some hnonneg hle]
  rfl

theorem bind_product64? {next : Int → Option β} (hnonneg : 0 ≤ a * b)
    (hle : a * b ≤ 9223372036854775807) : product64? a b >>= next = next (a * b) := by
  unfold product64?
  rw [if_pos ⟨by omega, hle⟩]
  rfl

/-- The seconds of a duration, added up in words of 64 bits; none if one of the operations leaves
them. -/
def Duration.seconds64? (d : Duration) : Option Int := do
  let weekDays ← product64? d.weeks 7
  let days ← sum64? weekDays d.days
  let daySeconds ← product64? days 86400
  let hourSeconds ← product64? d.hours 3600
  let minuteSeconds ← product64? d.minutes 60
  let withHours ← sum64? daySeconds hourSeconds
  let withMinutes ← sum64? withHours minuteSeconds
  sum64? withMinutes d.seconds

namespace Interval

/-- The months and seconds of an interval, however many. -/
def exactStep : Interval → Step
  | amount a =>
    match a.unit.length with
    | .seconds count => ⟨0, count * a.number⟩
    | .months count => ⟨count * a.number, 0⟩
  | duration d =>
    ⟨12 * d.years + d.months,
      604800 * d.weeks + 86400 * d.days + 3600 * d.hours + 60 * d.minutes + d.seconds⟩

theorem exactStep_seconds_nonneg (e : Interval) : 0 ≤ e.exactStep.seconds := by
  cases e with
  | amount a =>
    simp only [exactStep]
    cases a.unit.length with
    | seconds count => exact Int.mul_nonneg (Int.natCast_nonneg count) (Int.natCast_nonneg a.number)
    | months count => exact Int.le_refl 0
  | duration d =>
    simp only [exactStep]
    omega

/-- A number that stops at a limit before it is multiplied and again after it might as well have
stopped after it alone. -/
theorem min_mul_min (count number limit : Nat) :
    min (count * min number limit) limit = min (count * number) limit := by
  rcases Nat.le_total number limit with hle | hle
  · rw [Nat.min_eq_left hle]
  rw [Nat.min_eq_right hle]
  rcases Nat.eq_zero_or_pos count with rfl | hpos
  · rw [Nat.zero_mul, Nat.zero_mul]
  · have hlimit : limit ≤ count * limit := Nat.le_mul_of_pos_left limit hpos
    have hnumber : count * limit ≤ count * number := Nat.mul_le_mul_left count hle
    rw [Nat.min_eq_right hlimit, Nat.min_eq_right (hlimit.trans hnumber)]

/-- However often the numbers stop at a limit on the way, the step is the exact one up to it. -/
theorem capped_step (e : Interval) : e.step.capped = e.exactStep.capped := by
  cases e with
  | amount a =>
    simp only [step, Amount.step, Step.ofUnits, exactStep]
    cases a.unit.length with
    | seconds count =>
      simp only [Step.capped, min_mul_min]
      rw [← Int.natCast_mul]
      congr 1
      omega
    | months count =>
      simp only [Step.capped, min_mul_min]
      congr 1
      omega
  | duration d =>
    simp only [step, Duration.step, exactStep, Step.capped]
    congr 1 <;> omega

/-- The parts of a duration are so small against a word of 64 bits that their sum stays in it. -/
theorem seconds64?_eq {d : Duration} (hword : d.IsWord32) :
    d.seconds64? = some (exactStep (.duration d)).seconds := by
  simp only [Duration.IsWord32, Duration.dateParts, Duration.timeParts, Text.word32,
    List.cons_append, List.nil_append, List.forall_mem_cons] at hword
  obtain ⟨-, -, hweeks, hdays, hhours, hminutes, hseconds, -⟩ := hword
  have hsum : (d.weeks * 7 + d.days) * 86400 + d.hours * 3600 + d.minutes * 60 + d.seconds =
      (exactStep (.duration d)).seconds := by
    simp only [exactStep]
    omega
  rw [Duration.seconds64?, bind_product64?, bind_sum64?, bind_product64?, bind_product64?,
    bind_product64?, bind_sum64?, bind_sum64?, sum64?_eq_some, hsum]
  -- No operation on the way leaves the word.
  all_goals omega

/-- A number of steps has a result exactly if the calendar has the second that the months and the
seconds of the interval lead to, counted without any limit, and then the result lies in that
second. The seconds of a duration of words of 32 bits are added up without leaving 64 bits. -/
theorem repeated_step_is_exact (e : Interval) {start : Instant} (hstart : ¬ start.IsLeap)
    (count : Nat) :
    (∀ i, e.step.nth? start count = some i ↔ e.exactStep.Reaches start count i) ∧
      ((e.step.nth? start count).isSome = true ↔
        firstSecond ≤ e.exactStep.secondAfter start count ∧
          e.exactStep.secondAfter start count ≤ lastSecond) ∧
      ∀ d, e = .duration d → d.IsWord32 → d.seconds64? = some e.exactStep.seconds := by
  have hexact (i : Instant) :
      e.step.nth? start count = some i ↔ e.exactStep.Reaches start count i := by
    rw [Step.nth?_eq_some_iff hstart e.step_seconds_nonneg,
      ← Step.reaches_capped_iff e.step_seconds_nonneg, capped_step,
      Step.reaches_capped_iff e.exactStep_seconds_nonneg]
  refine ⟨hexact, ?_, ?_⟩
  · rw [Option.isSome_iff_exists]
    simp only [hexact]
    constructor
    · rintro ⟨i, hi⟩
      rw [← hi.1]
      exact ⟨i.firstSecond_le, i.le_lastSecond⟩
    · rintro ⟨-, hlast⟩
      exact Step.exists_reaches hstart e.exactStep_seconds_nonneg hlast
  · rintro d rfl hword
    exact seconds64?_eq hword

/-- A month, a day and as many seconds as a word holds after the end of January 1970. As many years
as a word of 64 bits holds lead nowhere. -/
theorem repeated_step_is_exact_end_of_january :
    let d : Duration := { months := 1, days := 1, seconds := 4294967295 }
    let years : Interval := .amount ⟨18446744073709551615, .year⟩
    let start := Instant.midnight 30 (by decide)
    let reached : Instant := ⟨4300064895, 0, by decide, by decide, by decide, by decide⟩
    ¬ start.IsLeap ∧ d.IsWord32 ∧ (duration d).step.nth? start (1 : Nat) = some reached ∧
      d.seconds64? = some (86400 + 4294967295) ∧
      (years.step.nth? start (1 : Nat)).isSome = false := by
  intro d years start reached
  have hstart : ¬ start.IsLeap := by decide
  have hword : d.IsWord32 := by
    unfold Duration.IsWord32
    decide
  obtain ⟨hexact, -, hseconds⟩ := repeated_step_is_exact (duration d) hstart 1
  obtain ⟨-, hyears, -⟩ := repeated_step_is_exact years hstart 1
  have hbeyond : ¬ years.exactStep.secondAfter start 1 ≤ lastSecond := by decide +kernel
  have hreached : (duration d).exactStep.Reaches start 1 reached := by decide +kernel
  have hsum : (duration d).exactStep.seconds = 86400 + 4294967295 := by decide +kernel
  refine ⟨hstart, hword, (hexact reached).2 hreached, (hseconds d rfl hword).trans ?_, ?_⟩
  · rw [hsum]
  · exact Bool.eq_false_iff.2 fun hsome => hbeyond (hyears.1 hsome).2

end Interval

end Almanac.Period

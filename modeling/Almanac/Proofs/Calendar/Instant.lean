import Almanac.Calendar.Instant

/-!
Moving an instant by months and by seconds, in terms of its second and its nanoseconds. Outside a
leap second a move succeeds exactly when the calendar has the second that it leads to.
-/

namespace Almanac.Calendar.Instant

/-- The start of a day, counted from 1970-01-01. -/
def midnight (day : Int) (h : firstDay ≤ day ∧ day ≤ lastDay) : Instant :=
  h.elim fun hfirst hlast => .on ⟨day, hfirst, hlast⟩ .midnight

theorem date_on (d : Date) (t : TimeOfDay) : (on d t).date = d := by
  have hsecond := t.second_lt
  have hday : (86400 * d.day + t.second) / 86400 = d.day := by omega
  obtain ⟨day, _, _⟩ := d
  exact (Date.mk.injEq ..).mpr hday

theorem ext_second {a b : Instant} (hsecond : a.second = b.second) (hnano : a.nano = b.nano) :
    a = b := by
  apply eq_of_position_eq
  simp only [position, hsecond, hnano]

/-- Where the nanoseconds agree the seconds alone give the order. -/
theorem lt_iff_second_lt {a b : Instant} (hnano : a.nano = b.nano) :
    a < b ↔ a.second < b.second := by
  simp only [lt_def, position, hnano]
  omega

theorem le_of_second_lt {a b : Instant} (h : a.second < b.second) : a ≤ b := by
  have ha := a.nano_lt
  simp only [le_def, position]
  omega

theorem lt_of_lt_of_le {a b c : Instant} (hab : a < b) (hbc : b ≤ c) : a < c :=
  Int.lt_of_lt_of_le hab hbc

theorem le_refl (i : Instant) : i ≤ i :=
  Int.le_refl i.position

theorem le_antisymm {a b : Instant} (hab : a ≤ b) (hba : b ≤ a) : a = b :=
  eq_of_position_eq (Int.le_antisymm hab hba)

theorem le_trans {a b c : Instant} (hab : a ≤ b) (hbc : b ≤ c) : a ≤ c :=
  Int.le_trans hab hbc

theorem lt_trans {a b c : Instant} (hab : a < b) (hbc : b < c) : a < c :=
  Int.lt_trans hab hbc

theorem le_of_lt {a b : Instant} (h : a < b) : a ≤ b :=
  Int.le_of_lt h

theorem lt_of_le_of_lt {a b c : Instant} (hab : a ≤ b) (hbc : b < c) : a < c :=
  Int.lt_of_le_of_lt hab hbc

theorem not_le {a b : Instant} : ¬ a ≤ b ↔ b < a :=
  Int.not_le

theorem not_lt {a b : Instant} : ¬ a < b ↔ b ≤ a :=
  Int.not_lt

theorem lt_of_le_of_ne {a b : Instant} (hle : a ≤ b) (hne : b ≠ a) : a < b :=
  not_le.1 fun hge => hne (le_antisymm hge hle)

theorem any_lt_iff {limit : Option Instant} {i : Instant} :
    limit.any (· < i) = true ↔ ∃ e ∈ limit, e < i := by
  rw [Option.any_eq_true]
  simp only [decide_eq_true_eq, Option.mem_def]

/-- A day starts at a multiple of its length. -/
theorem second_eq_day_add_timeOfDay (i : Instant) :
    i.second = 86400 * i.date.day + i.timeOfDay.second := by
  simp only [date, timeOfDay]
  omega

theorem day_le_day {a b : Instant} (h : a ≤ b) : a.date.day ≤ b.date.day := by
  have ha := a.nano_lt
  have hb := b.nano_lt
  simp only [le_def, position, date] at *
  omega

theorem timeOfDay_second_lt (i : Instant) : i.timeOfDay.second < 86400 :=
  i.timeOfDay.second_lt

/-- Truncation to the second never goes forward. -/
theorem wholeSecond_le (i : Instant) : i.wholeSecond ≤ i := by
  simp only [le_def, position, wholeSecond]
  omega

theorem wholeSecond_le_wholeSecond {a b : Instant} (h : a ≤ b) :
    a.wholeSecond ≤ b.wholeSecond := by
  have ha := a.nano_lt
  have hb := b.nano_lt
  simp only [le_def, position, wholeSecond] at *
  omega

/-- A second after a moment the second that the moment lies in is over, a leap second too. -/
theorem le_addSeconds?_one {i time later : Instant} (hdue : time.wholeSecond ≤ i)
    (hlater : i.addSeconds? 1 = some later) : time ≤ later := by
  have hsecond : later.second = i.second + 1 := by
    unfold addSeconds? ofSecond? at hlater
    simp only [Int.one_ne_zero, if_false] at hlater
    split at hlater <;> obtain ⟨_, hmoved⟩ := Option.dite_none_right_eq_some.1 hlater <;>
      cases hmoved <;> simp
  have htime := time.nano_lt
  have hi := i.nano_lt
  simp only [le_def, position, wholeSecond] at *
  omega

theorem addMinutes?_zero (i : Instant) : i.addMinutes? 0 = some i := by
  have hsecond : i.second + 60 * 0 = i.second := by omega
  simp only [addMinutes?, hsecond]
  exact dif_pos ⟨i.firstSecond_le, i.le_lastSecond⟩

theorem addSeconds?_eq_some_iff {i moved : Instant} {seconds : Int} (hleap : ¬ i.IsLeap) :
    i.addSeconds? seconds = some moved ↔
      moved.second = i.second + seconds ∧ moved.nano = i.nano := by
  have hnano : i.nano < 1000000000 := by
    unfold IsLeap at hleap
    omega
  unfold addSeconds? ofSecond?
  by_cases hzero : seconds = 0
  · rw [if_pos hzero, Option.some.injEq]
    constructor
    · rintro rfl
      exact ⟨by omega, rfl⟩
    · rintro ⟨hsecond, hsame⟩
      exact ext_second (by omega) hsame.symm
  · rw [if_neg hzero, if_neg hleap]
    constructor
    · intro h
      obtain ⟨_, hmoved⟩ := Option.dite_none_right_eq_some.1 h
      cases hmoved
      exact ⟨rfl, rfl⟩
    · rintro ⟨hsecond, hsame⟩
      have hlow := moved.firstSecond_le
      have hhigh := moved.le_lastSecond
      rw [dif_pos ⟨by omega, by omega, hnano⟩]
      exact congrArg some (ext_second hsecond.symm hsame.symm)

/-- A second later there is an instant unless the last second of the calendar has begun. -/
theorem addSeconds?_one_eq_none_iff {i : Instant} (hleap : ¬ i.IsLeap) :
    i.addSeconds? 1 = none ↔ i.second = lastSecond := by
  have hlow := i.firstSecond_le
  have hhigh := i.le_lastSecond
  constructor
  · intro hnone
    refine Decidable.byContradiction fun hbefore => ?_
    have hnano : i.nano < 1000000000 := by
      unfold IsLeap at hleap
      omega
    have hmoved : i.addSeconds? 1 =
        some ⟨i.second + 1, i.nano, by omega, by omega, i.nano_lt, by omega⟩ :=
      (addSeconds?_eq_some_iff hleap).2 ⟨rfl, rfl⟩
    cases hnone.symm.trans hmoved
  · intro hlast
    refine Option.eq_none_iff_forall_ne_some.2 fun moved hmoved => ?_
    have := ((addSeconds?_eq_some_iff hleap).1 hmoved).1
    have := moved.le_lastSecond
    omega

theorem addMonths?_eq_some_iff {i moved : Instant} {months : Nat} :
    i.addMonths? months = some moved ↔
      moved.second = 86400 * shiftMonths i.date.day months + i.timeOfDay.second ∧
        moved.nano = i.nano := by
  unfold addMonths? Date.addMonths? Date.ofDay?
  rw [Option.map_eq_some_iff]
  constructor
  · rintro ⟨d, hd, rfl⟩
    obtain ⟨_, hday⟩ := Option.dite_none_right_eq_some.1 hd
    cases hday
    exact ⟨rfl, rfl⟩
  · rintro ⟨hsecond, hnano⟩
    have hlow := moved.date.firstDay_le
    have hhigh := moved.date.le_lastDay
    have hday : moved.date.day = shiftMonths i.date.day months := by
      have := i.timeOfDay_second_lt
      simp only [date]
      simp only [date] at hsecond
      omega
    rw [hday] at hlow hhigh
    exact ⟨_, dif_pos ⟨hlow, hhigh⟩, ext_second hsecond.symm hnano.symm⟩

/-- Outside leap seconds the distance of two instants is that of their seconds and nanoseconds. -/
theorem nanosSince_of_not_isLeap {later earlier : Instant} (hlater : ¬ later.IsLeap)
    (hearlier : ¬ earlier.IsLeap) :
    later.nanosSince earlier =
      1000000000 * (later.second - earlier.second) + later.nano - earlier.nano := by
  have := later.second_eq_day_add_timeOfDay
  have := earlier.second_eq_day_add_timeOfDay
  simp only [nanosSince, hlater, hearlier, and_false, if_false]
  omega

theorem secondsSince_nonneg {later earlier : Instant} (hlater : ¬ later.IsLeap)
    (hearlier : ¬ earlier.IsLeap) (hle : earlier ≤ later) : 0 ≤ later.secondsSince earlier := by
  unfold IsLeap at hlater hearlier
  simp only [le_def, position] at hle
  rw [secondsSince, nanosSince_of_not_isLeap hlater hearlier]
  exact Int.tdiv_nonneg (by omega) (by omega)

/-- Whole seconds never count a second that is not over. -/
theorem secondsSince_le {later earlier : Instant} (hlater : ¬ later.IsLeap)
    (hearlier : ¬ earlier.IsLeap) (hle : earlier ≤ later) :
    later.secondsSince earlier ≤ later.second - earlier.second := by
  unfold IsLeap at hlater hearlier
  simp only [le_def, position] at hle
  rw [secondsSince, nanosSince_of_not_isLeap hlater hearlier, Int.tdiv_eq_ediv_of_nonneg (by omega)]
  omega

/-- Whole seconds count exactly those that are over. -/
theorem le_secondsSince_iff {later earlier i : Instant} (hlater : ¬ later.IsLeap)
    (hearlier : ¬ earlier.IsLeap) (hle : earlier ≤ later) (hsame : i.nano = earlier.nano) :
    i.second - earlier.second ≤ later.secondsSince earlier ↔ i ≤ later := by
  unfold IsLeap at hlater hearlier
  simp only [le_def, position] at hle ⊢
  rw [secondsSince, nanosSince_of_not_isLeap hlater hearlier, Int.tdiv_eq_ediv_of_nonneg (by omega)]
  omega

/-- A leap second is counted as a further second of the second that it extends, and it is left out
where it lies at an earlier time of another day. -/
theorem secondsSince_of_isLeap {later earlier : Instant} (hlater : later.IsLeap)
    (hearlier : ¬ earlier.IsLeap) (hle : earlier ≤ later) :
    0 ≤ later.secondsSince earlier ∧
      later.secondsSince earlier ≤ later.second - earlier.second + 1 := by
  have hlaterSecond := later.second_eq_day_add_timeOfDay
  have hearlierSecond := earlier.second_eq_day_add_timeOfDay
  have hnano := later.nano_lt
  have hday := earlier.timeOfDay_second_lt
  have hnanos : later.nanosSince earlier =
      (later.second - earlier.second +
        if later.timeOfDay.second < earlier.timeOfDay.second then -1 else 0) * 1000000000 +
          later.nano - earlier.nano := by
    simp only [nanosSince, hlater, hearlier, and_false, and_true, if_false]
    split <;> omega
  unfold IsLeap at hlater hearlier
  simp only [le_def, position] at hle
  have hnonneg : 0 ≤ later.nanosSince earlier := by
    rw [hnanos]
    split <;> omega
  rw [secondsSince, Int.tdiv_eq_ediv_of_nonneg hnonneg, hnanos]
  constructor <;> split <;> omega

end Almanac.Calendar.Instant

import Almanac.Proofs.Calendar.Instant
import Almanac.Proofs.Filter
import Almanac.Proofs.Reduction.Run
import Almanac.Reduction.Moment

/-!
The next of some days of the week. Of several days the nearest counts, by how far ahead it is around
the week. This is the first date from today on that falls on any of them, and only in the last days
of the calendar there may be none.
-/

namespace Almanac

open Calendar Reduction

theorem Calendar.Weekday.index_ofIndex {n : Nat} (h : n < 7) : (ofIndex n).index = n := by
  have hall : ∀ n < 7, (ofIndex n).index = n := by decide
  exact hall n h

theorem Calendar.Weekday.index_lt (day : Weekday) : day.index < 7 := by
  cases day <;> decide

theorem Calendar.Date.index_weekday (d : Date) : (d.weekday.index : Int) = (d.day + 3) % 7 := by
  unfold weekday weekdayNumber Weekday.ofNumber
  rw [Weekday.index_ofIndex (by omega)]
  omega

/-- Days that are apart by whole weeks fall on the same day of the week. -/
theorem daysUntil_weekday (today d : Date) :
    (daysUntil today.weekday d.weekday : Int) = (d.day - today.day) % 7 := by
  have htoday := today.index_weekday
  have hd := d.index_weekday
  unfold daysUntil
  omega

theorem daysUntil_lt (today day : Weekday) : daysUntil today day < 7 :=
  Nat.mod_lt _ (by decide)

theorem weekday_eq_of_day_eq {today d : Date} {day : Weekday}
    (h : d.day = today.day + daysUntil today.weekday day) : d.weekday = day := by
  have htoday := today.index_weekday
  have hd := d.index_weekday
  have hday := day.index_lt
  unfold daysUntil at h
  apply Weekday.eq_of_index_eq
  omega

/-- The first date from today on that falls on one of the days of the week. -/
structure Calendar.Date.IsNextOn (today : Date) (days : List Weekday) (d : Date) : Prop where
  day_le : today.day ≤ d.day
  weekday_mem : d.weekday ∈ days
  le_of_weekday_mem : ∀ other : Date, today.day ≤ other.day → other.weekday ∈ days →
    d.day ≤ other.day

theorem Calendar.Date.IsNextOn.of_ofList {today d : Date} {days : List Weekday}
    (h : today.IsNextOn (SortedSet.ofList days).toList d) : today.IsNextOn days d where
  day_le := h.day_le
  weekday_mem := SortedSet.mem_ofList.1 h.weekday_mem
  le_of_weekday_mem other hle hother :=
    h.le_of_weekday_mem other hle (SortedSet.mem_ofList.2 hother)

/-- The date comes after every date of the calendar that falls on one of the days of the week. -/
def Calendar.Date.IsAfterAll (today : Date) (days : SortedSet Weekday) : Prop :=
  ∀ d : Date, d.weekday ∈ days → d.day < today.day

variable {today : Date} {days : SortedSet Weekday} {ahead : Nat}

theorem nearestAhead?_eq_some_iff {today : Weekday} :
    nearestAhead? today days = some ahead ↔
      (∃ day ∈ days, daysUntil today day = ahead) ∧ ∀ day ∈ days, ahead ≤ daysUntil today day := by
  simp only [nearestAhead?, List.min?_eq_some_iff, List.mem_map, forall_exists_index, and_imp,
    forall_apply_eq_imp_iff₂, SortedSet.mem_def]

theorem nearestAhead?_eq_none_iff {today : Weekday} :
    nearestAhead? today days = none ↔ days.isEmpty = true := by
  simp [nearestAhead?, SortedSet.isEmpty]

theorem nearestAhead?_lt {today : Weekday} (h : nearestAhead? today days = some ahead) :
    ahead < 7 := by
  obtain ⟨⟨day, -, rfl⟩, -⟩ := nearestAhead?_eq_some_iff.1 h
  exact daysUntil_lt today day

/-- The nearest of the days of the week is on the first date that falls on any of them. -/
theorem isNextOn_of_nearestAhead? {d : Date}
    (hnearest : nearestAhead? today.weekday days = some ahead)
    (hday : d.day = today.day + ahead) : today.IsNextOn days.toList d := by
  obtain ⟨⟨day, hmem, rfl⟩, hleast⟩ := nearestAhead?_eq_some_iff.1 hnearest
  refine ⟨by omega, ?_, fun other hle hother => ?_⟩
  · rwa [weekday_eq_of_day_eq hday]
  · have hahead := hleast _ hother
    have huntil := daysUntil_weekday today other
    omega

theorem Calendar.Date.day_of_addDays?_eq_some {d : Date} (h : today.addDays? ahead = some d) :
    d.day = today.day + ahead := by
  unfold addDays? ofDay? at h
  split_ifs at h
  cases h
  rfl

/-- Only the end of the calendar is in the way of counting on. -/
theorem Calendar.Date.addDays?_eq_none_iff :
    today.addDays? ahead = none ↔ lastDay < today.day + ahead := by
  have hfirst := today.firstDay_le
  unfold addDays? ofDay?
  rw [dite_eq_right_iff]
  simp only [reduceCtorEq, imp_false]
  omega

/-- The search breaks off where no date is left that falls on one of the days of the week. -/
theorem run_nextWeekday_breaksOff_iff {g : Generator} :
    (nextWeekday today days).run g = .error .calendarEnd ↔
      days.isEmpty = false ∧ today.IsAfterAll days := by
  unfold nextWeekday
  cases hnearest : nearestAhead? today.weekday days with
  | none => simp [nearestAhead?_eq_none_iff.1 hnearest]
  | some ahead =>
    obtain ⟨⟨day, hmem, hday⟩, hleast⟩ := nearestAhead?_eq_some_iff.1 hnearest
    cases hadd : today.addDays? ahead with
    | none =>
      simp only [hadd]
      refine iff_of_true rfl ⟨List.isEmpty_eq_false_iff.2 (List.ne_nil_of_mem hmem), fun d hd => ?_⟩
      have hend := Date.addDays?_eq_none_iff.1 hadd
      have hlast := d.le_lastDay
      have hahead := hleast _ hd
      have huntil := daysUntil_weekday today d
      omega
    | some d =>
      simp only [hadd]
      refine iff_of_false nofun fun ⟨_, hafter⟩ => ?_
      have hd := Date.day_of_addDays?_eq_some hadd
      have hbefore := hafter d (by rwa [weekday_eq_of_day_eq (hday ▸ hd)])
      omega

/-- With a week left in the calendar there is such a date, and it comes within the week. -/
theorem nextWeekday_eq_pure (hsome : days.isEmpty = false) (hroom : today.day + 6 ≤ lastDay) :
    ∃ d, nextWeekday today days = pure d ∧ today.IsNextOn days.toList d ∧
      d.day < today.day + 7 := by
  unfold nextWeekday
  cases hnearest : nearestAhead? today.weekday days with
  | none => simp [nearestAhead?_eq_none_iff.1 hnearest] at hsome
  | some ahead =>
    have hahead := nearestAhead?_lt hnearest
    cases hadd : today.addDays? ahead with
    | none =>
      have hend := Date.addDays?_eq_none_iff.1 hadd
      omega
    | some d =>
      have hd := Date.day_of_addDays?_eq_some hadd
      refine ⟨d, ?_, isNextOn_of_nearestAhead? hnearest hd, by omega⟩
      simp only [hadd]

theorem Calendar.Date.not_isAfterAll (hsome : days.isEmpty = false)
    (hroom : today.day + 6 ≤ lastDay) : ¬ today.IsAfterAll days := by
  obtain ⟨d, -, hnext, -⟩ := nextWeekday_eq_pure hsome hroom
  exact fun hafter => absurd (hafter d hnext.weekday_mem) (Int.not_lt.2 hnext.day_le)

end Almanac

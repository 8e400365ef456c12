import Mathlib.Data.Set.Card
import Almanac.Proofs.Occurrence.Following

/-!
The admitted search of one recurrence with filters. It walks through the earliest occurrences up to
the limit, each of them once, and stops at the first that the filters let pass.
-/

namespace Almanac.Occurrence

open Calendar Period

/-- Those of some instants that have fewer than `count` of them before. -/
def amongEarliest (count : Nat) (instants : Set Instant) : Set Instant :=
  {i | i ∈ instants ∧ {j | j ∈ instants ∧ j < i}.encard < count}

variable {instants : Set Instant} {i first : Instant} {count : Nat}

theorem not_mem_amongEarliest_zero : i ∉ amongEarliest 0 instants := by
  rintro ⟨_, hfew⟩
  exact absurd hfew (by simp only [Nat.cast_zero, not_lt_zero, not_false_eq_true])

theorem before_eq_insert_first (hfirst : IsLeast instants first) (hlt : first < i) :
    {j | j ∈ instants ∧ j < i} = insert first {j | (j ∈ instants ∧ first < j) ∧ j < i} := by
  ext j
  constructor
  · rintro ⟨hj, hbefore⟩
    by_cases hsame : j = first
    · exact Or.inl hsame
    · exact Or.inr ⟨⟨hj, Instant.lt_of_le_of_ne (hfirst.2 hj) hsame⟩, hbefore⟩
  · rintro (rfl | ⟨⟨hj, _⟩, hbefore⟩)
    · exact ⟨hfirst.1, hlt⟩
    · exact ⟨hj, hbefore⟩

/-- After the first, the next earliest are those of the instants behind it. -/
theorem mem_amongEarliest_succ (hfirst : IsLeast instants first) :
    i ∈ amongEarliest (count + 1) instants ↔
      i = first ∨ i ∈ amongEarliest count {j | j ∈ instants ∧ first < j} := by
  have hcard : ∀ {i}, first < i → ({j | j ∈ instants ∧ j < i}.encard < (count + 1 : Nat) ↔
      {j | (j ∈ instants ∧ first < j) ∧ j < i}.encard < count) := by
    intro i hlt
    have hnew : first ∉ {j | (j ∈ instants ∧ first < j) ∧ j < i} := fun hmem =>
      Instant.not_lt.2 (Instant.le_refl first) hmem.1.2
    rw [before_eq_insert_first hfirst hlt, Set.encard_insert_of_notMem hnew, Nat.cast_add_one]
    exact ENat.add_lt_add_iff_right ENat.one_ne_top
  constructor
  · rintro ⟨hi, hfew⟩
    by_cases hsame : i = first
    · exact Or.inl hsame
    · have hlt := Instant.lt_of_le_of_ne (hfirst.2 hi) hsame
      exact Or.inr ⟨⟨hi, hlt⟩, (hcard hlt).1 hfew⟩
  · rintro (rfl | ⟨⟨hi, hlt⟩, hfew⟩)
    · have hnoneBefore : {j | j ∈ instants ∧ j < i} = ∅ :=
        Set.eq_empty_iff_forall_notMem.2 fun j hj => Instant.not_lt.2 (hfirst.2 hj.1) hj.2
      refine ⟨hfirst.1, ?_⟩
      rw [hnoneBefore, Set.encard_empty]
      exact_mod_cast Nat.succ_pos count
    · exact ⟨hi, (hcard hlt).2 hfew⟩

/-- A walk over the due instants asks for each of the earliest once. The cursor is always the query
or the due instant that was rejected last, so the due instants after it are those not yet asked. -/
theorem isFirst_walkAdmitted {following : Instant → Option Instant} {admits : Instant → Bool}
    {due : Set Instant} (hdue : ∀ i ∈ due, ¬ i.IsLeap)
    (hfollowing : ∀ cursor, ¬ cursor.IsLeap → IsFirst {i | i ∈ due ∧ cursor < i} (following cursor))
    (steps : Nat) {cursor : Instant} (hcursor : ¬ cursor.IsLeap) :
    ∃ answer, walkAdmitted following admits steps cursor = .ok answer ∧
      IsFirst {i | i ∈ amongEarliest steps {j | j ∈ due ∧ cursor < j} ∧ admits i = true}
        answer := by
  induction steps generalizing cursor with
  | zero => exact ⟨none, rfl, isFirst_none fun i hi => not_mem_amongEarliest_zero hi.1⟩
  | succ steps ih =>
    have hfirst := hfollowing cursor hcursor
    unfold walkAdmitted
    cases hnext : following cursor with
    | none =>
      rw [hnext] at hfirst
      exact ⟨none, rfl, isFirst_none fun i hi => hfirst.not_mem i hi.1.1⟩
    | some candidate =>
      rw [hnext] at hfirst
      obtain ⟨hcandidate, hafter⟩ := hfirst.mem
      by_cases hadmits : admits candidate = true
      · refine ⟨some candidate, if_pos hadmits, ?_, fun i hi => hfirst.le hi.1.1⟩
        exact ⟨(mem_amongEarliest_succ hfirst).2 (Or.inl rfl), hadmits⟩
      · have hbehind : {j | j ∈ {j | j ∈ due ∧ cursor < j} ∧ candidate < j} =
            {j | j ∈ due ∧ candidate < j} := by
          ext j
          exact ⟨fun hj => ⟨hj.1.1, hj.2⟩, fun hj => ⟨⟨hj.1, Instant.lt_trans hafter hj.2⟩, hj.2⟩⟩
        obtain ⟨answer, hwalk, hrest⟩ := ih (hdue candidate hcandidate)
        refine ⟨answer, ?_, hrest.congr fun i => ?_⟩
        · simp only [if_neg hadmits, if_pos hafter]
          exact hwalk
        · rw [← hbehind]
          constructor
          · rintro ⟨hi, hpass⟩
            exact ⟨(mem_amongEarliest_succ hfirst).2 (Or.inr hi), hpass⟩
          · rintro ⟨hi, hpass⟩
            rcases (mem_amongEarliest_succ hfirst).1 hi with rfl | hi
            · exact absurd hpass hadmits
            · exact ⟨hi, hpass⟩

section Once

variable {r : Recurrence} {admits : Instant → Bool} {cursor time : Instant}

theorem mem_occurrencesAfter_once (hevery : r.every = none) :
    i ∈ r.occurrencesAfter time ↔
      i = r.start ∧ time.wholeSecond ≤ r.start ∧ ∀ stop ∈ r.stopInstant?, time ≤ stop := by
  unfold Recurrence.occurrencesAfter
  rw [hevery]
  rfl

theorem isLeast_occurrencesAfter_once (hevery : r.every = none)
    (hstill : r.start ∈ r.occurrencesAfter time) : IsLeast (r.occurrencesAfter time) r.start := by
  refine ⟨hstill, fun i hi => ?_⟩
  obtain ⟨rfl, _⟩ := (mem_occurrencesAfter_once hevery).1 hi
  exact Instant.le_refl _

theorem walkAdmitted_once_over (hevery : r.every = none)
    (hover : r.start ∉ r.occurrencesAfter cursor) (steps : Nat) :
    walkAdmitted r.following admits steps cursor = .ok none := by
  have hnone : r.following cursor = none := by
    refine (isFirst_following_of_every_eq_none hevery).eq_none_iff.2 ?_
    refine Set.eq_empty_iff_forall_notMem.2 fun i hi => hover ?_
    obtain ⟨rfl, _⟩ := (mem_occurrencesAfter_once hevery).1 hi
    exact hi
  cases steps with
  | zero => rfl
  | succ steps =>
    unfold walkAdmitted
    rw [hnone]

/-- From the start on a rejected start is given up by going on a second after it. -/
theorem walkAdmitted_once_of_le (hregular : r.IsRegular) (hevery : r.every = none)
    (hrejected : ¬ admits r.start = true) (hstill : r.start ∈ r.occurrencesAfter cursor)
    (hbegun : r.start ≤ cursor) (steps : Nat) :
    walkAdmitted r.following admits (steps + 1) cursor =
      if r.start.second = lastSecond then .error .calendarEnd else .ok none := by
  have hfollowing : r.following cursor = some r.start :=
    (isFirst_following_of_every_eq_none hevery).eq_some_iff.2
      (isLeast_occurrencesAfter_once hevery hstill)
  unfold walkAdmitted
  simp only [hfollowing, if_neg hrejected, if_neg (Instant.not_lt.2 hbegun)]
  cases hlater : r.start.addSeconds? 1 with
  | none =>
    have hlast := (Instant.addSeconds?_one_eq_none_iff hregular.start_not_isLeap).1 hlater
    rw [if_pos hlast]
  | some later =>
    have hnotLast : ¬ r.start.second = lastSecond := fun hlast => by
      have hnone := (Instant.addSeconds?_one_eq_none_iff hregular.start_not_isLeap).2 hlast
      cases hnone.symm.trans hlater
    rw [if_neg hnotLast]
    refine walkAdmitted_once_over hevery (fun hstill' => ?_) steps
    obtain ⟨_, hwhole, _⟩ := (mem_occurrencesAfter_once hevery).1 hstill'
    obtain ⟨hsecond, _⟩ := (Instant.addSeconds?_eq_some_iff hregular.start_not_isLeap).1 hlater
    have hnano := r.start.nano_lt
    unfold Instant.wholeSecond at hwhole
    simp only [Instant.le_def, Instant.position] at hwhole
    omega

theorem walkAdmitted_once_rejected (hregular : r.IsRegular) (hevery : r.every = none)
    (hrejected : ¬ admits r.start = true) (hstill : r.start ∈ r.occurrencesAfter cursor)
    (steps : Nat) :
    walkAdmitted r.following admits (steps + 2) cursor =
      if r.start.second = lastSecond then .error .calendarEnd else .ok none := by
  by_cases hbefore : cursor < r.start
  · have hstart : r.start ∈ r.occurrencesAfter r.start :=
      (mem_occurrencesAfter_once hevery).2 ⟨rfl, Instant.wholeSecond_le _,
        fun stop hstop => Instant.le_of_lt (hregular.start_lt_stop stop hstop)⟩
    have hfollowing : r.following cursor = some r.start :=
      (isFirst_following_of_every_eq_none hevery).eq_some_iff.2
        (isLeast_occurrencesAfter_once hevery hstill)
    rw [walkAdmitted]
    simp only [hfollowing, if_neg hrejected, if_pos hbefore]
    exact walkAdmitted_once_of_le hregular hevery hrejected hstart (Instant.le_refl _) steps
  · exact walkAdmitted_once_of_le hregular hevery hrejected hstill (Instant.not_lt.1 hbefore) _

end Once

namespace Filtered

/-- What the filters admit among the hundred earliest occurrences after `time`. -/
def admittedEarly (s : Filtered) (time : Instant) : Set Instant :=
  {i | i ∈ amongEarliest 100 (s.recurrence.occurrencesAfter time) ∧ s.admits i = true}

/-- The member happens once, in the last second of the calendar, which is still to come, and its
filters reject it. -/
structure LeavesCalendar (s : Filtered) (time : Instant) : Prop where
  every_eq_none : s.recurrence.every = none
  start_second_eq : s.recurrence.start.second = lastSecond
  start_mem : s.recurrence.start ∈ s.recurrence.occurrencesAfter time
  rejects : ¬ s.admits s.recurrence.start = true

variable {s : Filtered} {time : Instant}

theorem nextAdmitted_of_leavesCalendar (hregular : s.recurrence.IsRegular)
    (h : s.LeavesCalendar time) : s.nextAdmitted time = .error .calendarEnd := by
  have hwalk := walkAdmitted_once_rejected hregular h.every_eq_none h.rejects h.start_mem 98
  rw [if_pos h.start_second_eq] at hwalk
  exact hwalk

theorem isFirst_nextAdmitted_of_every_eq_some {intervals : List Interval}
    (hregular : s.recurrence.IsRegular) (hevery : s.recurrence.every = some intervals)
    (htime : ¬ time.IsLeap) :
    ∃ answer, s.nextAdmitted time = .ok answer ∧ IsFirst (s.admittedEarly time) answer := by
  have hoccurrences : s.recurrence.occurrencesAfter time =
      {i | i ∈ s.recurrence.dueAt intervals ∧ time < i} := by
    unfold Recurrence.occurrencesAfter
    rw [hevery]
  unfold admittedEarly
  rw [hoccurrences]
  exact isFirst_walkAdmitted (fun i hi => hregular.not_isLeap_of_mem_dueAt hi)
    (fun cursor hcursor => isFirst_following_of_every_eq_some hregular hevery hcursor)
    maxRounds htime

theorem isFirst_nextAdmitted_of_every_eq_none (hregular : s.recurrence.IsRegular)
    (hevery : s.recurrence.every = none) (hstays : ¬ s.LeavesCalendar time) :
    ∃ answer, s.nextAdmitted time = .ok answer ∧ IsFirst (s.admittedEarly time) answer := by
  by_cases hstill : s.recurrence.start ∈ s.recurrence.occurrencesAfter time
  · have hleast := isLeast_occurrencesAfter_once hevery hstill
    by_cases hadmits : s.admits s.recurrence.start = true
    · have hfollowing : s.following time = some s.recurrence.start :=
        (isFirst_following_of_every_eq_none hevery).eq_some_iff.2 hleast
      refine ⟨some s.recurrence.start, ?_, ⟨?_, hadmits⟩, fun i hi => hleast.2 hi.1.1⟩
      · unfold nextAdmitted firstAdmitted maxRounds walkAdmitted
        simp only [hfollowing, if_pos hadmits]
      · exact (mem_amongEarliest_succ hleast).2 (Or.inl rfl)
    · have hwalk := walkAdmitted_once_rejected hregular hevery hadmits hstill 98
      rw [if_neg fun hlast => hstays ⟨hevery, hlast, hstill, hadmits⟩] at hwalk
      refine ⟨none, hwalk, isFirst_none fun i hi => ?_⟩
      obtain ⟨hi, hpass⟩ := hi
      obtain ⟨rfl, _⟩ := (mem_occurrencesAfter_once hevery).1 hi.1
      exact hadmits hpass
  · refine ⟨none, walkAdmitted_once_over hevery hstill maxRounds, isFirst_none fun i hi => ?_⟩
    obtain ⟨rfl, hstill'⟩ := (mem_occurrencesAfter_once hevery).1 hi.1.1
    exact hstill ((mem_occurrencesAfter_once hevery).2 ⟨rfl, hstill'⟩)

/-- The search of one member finds the first of its hundred earliest occurrences that its filters
admit, unless it would have to look beyond the calendar. -/
theorem isFirst_nextAdmitted (hregular : s.recurrence.IsRegular) (htime : ¬ time.IsLeap)
    (hstays : ¬ s.LeavesCalendar time) :
    ∃ answer, s.nextAdmitted time = .ok answer ∧ IsFirst (s.admittedEarly time) answer := by
  cases hevery : s.recurrence.every with
  | none => exact isFirst_nextAdmitted_of_every_eq_none hregular hevery hstays
  | some intervals => exact isFirst_nextAdmitted_of_every_eq_some hregular hevery htime

end Filtered

end Almanac.Occurrence

import Almanac.Occurrence.Candidates
import Almanac.Proofs.Occurrence.First
import Almanac.Proofs.Period.Estimate

/-!
What the candidates of an interval are, asked for one by one. The search for the first of them
starts at the estimate and corrects it in both directions. It finds the first candidate unless the
estimate overshoots the calendar, and then it finds none.
-/

namespace Almanac.Occurrence

open Calendar Period

variable {s : Step} {start time : Instant} {stop : Option Instant}

/-- The index is that of the first repetition after `time`, and there is none if no repetition is
after it. -/
def IsFirstIndex (s : Step) (start time : Instant) : Option Nat → Prop
  | some index =>
    1 ≤ index ∧ (∃ i, s.Reaches start index i ∧ time < i) ∧
      ∀ k i, 1 ≤ k → k < index → s.Reaches start k i → i ≤ time
  | none => ∀ k i, 1 ≤ k → s.Reaches start k i → i ≤ time

theorem stepForward?_of_eq_some (hforward : s.isZero = false) {index : Nat} {reached : Instant}
    (hreached : s.nth? start index = some reached) :
    stepForward? s start time hforward index =
      if reached ≤ time then stepForward? s start time hforward (index + 1) else some index := by
  rw [stepForward?]
  split
  case h_1 found hfound =>
    obtain rfl : found = reached := Option.some.inj (hfound.symm.trans hreached)
    rfl
  case h_2 hnone => cases hnone.symm.trans hreached

theorem stepForward?_of_eq_none (hforward : s.isZero = false) {index : Nat}
    (hnone : s.nth? start index = none) : stepForward? s start time hforward index = none := by
  rw [stepForward?]
  split
  case h_1 found hfound => cases hfound.symm.trans hnone
  case h_2 => rfl

section Forward

variable (hforward : s.isZero = false) (hseconds : 0 ≤ s.seconds) (hstart : ¬ start.IsLeap)

include hforward hseconds hstart

theorem isFirstIndex_stepForward? (index : Nat) (hpos : 1 ≤ index)
    (hbefore : ∀ k i, 1 ≤ k → k < index → s.Reaches start k i → i ≤ time) :
    IsFirstIndex s start time (stepForward? s start time hforward index) := by
  induction index using stepForward?.induct s start time hforward with
  | case1 index reached hreached hle ih =>
    have hat := (Step.nth?_eq_some_iff hstart hseconds).1 hreached
    rw [stepForward?_of_eq_some hforward hreached, if_pos hle]
    refine ih (by omega) ?_
    intro k i hk hlt hi
    exact Instant.le_trans (hi.le hforward hseconds hat (Nat.le_of_lt_succ hlt)) hle
  | case2 index reached hreached hle =>
    have hat := (Step.nth?_eq_some_iff hstart hseconds).1 hreached
    rw [stepForward?_of_eq_some hforward hreached, if_neg hle]
    exact ⟨hpos, ⟨reached, hat, Instant.not_le.1 hle⟩, hbefore⟩
  | case3 index hnone =>
    rw [stepForward?_of_eq_none hforward hnone]
    intro k i hk hi
    by_cases hlt : k < index
    · exact hbefore k i hk hlt hi
    · obtain ⟨reached, hat⟩ := hi.exists_of_le hforward hseconds hstart (Nat.not_lt.1 hlt)
      rw [(Step.nth?_eq_some_iff hstart hseconds).2 hat] at hnone
      cases hnone

/-- The way back from an estimate within the calendar passes over repetitions after `time` only. -/
theorem stepBack_spec (estimate : Nat)
    (hwithin : 1 < estimate → ∃ i, s.Reaches start (estimate - 1) i) :
    1 ≤ stepBack s start time estimate ∧
      ∀ k i, 1 ≤ k → k < stepBack s start time estimate → s.Reaches start k i → i ≤ time := by
  induction estimate using stepBack.induct s start time with
  | case1 =>
    rw [stepBack]
    exact ⟨Nat.le_refl 1, fun k i hk hlt => by omega⟩
  | case2 =>
    rw [stepBack]
    exact ⟨Nat.le_refl 1, fun k i hk hlt => by omega⟩
  | case3 index reached hreached hlt ih =>
    have hat := (Step.nth?_eq_some_iff hstart hseconds).1 hreached
    rw [stepBack, hreached]
    simp only [hlt, if_true]
    exact ih fun _ => hat.exists_of_le hforward hseconds hstart (Nat.le_succ index)
  | case4 index reached hreached hlt =>
    have hat := (Step.nth?_eq_some_iff hstart hseconds).1 hreached
    have hle := Instant.not_lt.1 hlt
    rw [stepBack, hreached]
    simp only [hlt, if_false]
    refine ⟨by omega, ?_⟩
    intro k i hk hlast hi
    exact Instant.le_trans (hi.le hforward hseconds hat (Nat.le_of_lt_succ hlast)) hle
  | case5 index hnone =>
    obtain ⟨i, hi⟩ := hwithin (by omega)
    have hsome := (Step.nth?_eq_some_iff hstart hseconds).2 hi
    rw [show index.succ.succ - 1 = index + 1 from rfl, hnone] at hsome
    cases hsome

/-- The jump finds the first repetition after `time`, if the estimate stays in the calendar. -/
theorem isFirstIndex_ofStep (stop : Option Instant) (hover : ¬ s.Overshoots start time) :
    IsFirstIndex s start time (Candidates.ofStep s start time stop).index := by
  have hwithin : 1 < s.estimate start time →
      ∃ i, s.Reaches start (s.estimate start time - 1) i := by
    intro hpos
    cases hbefore : s.nth? start ((s.estimate start time - 1 : Nat) : Int) with
    | none => exact absurd ⟨hpos, hbefore⟩ hover
    | some i => exact ⟨i, (Step.nth?_eq_some_iff hstart hseconds).1 hbefore⟩
  obtain ⟨hpos, hbefore⟩ := stepBack_spec hforward hseconds hstart _ hwithin
  rw [Candidates.ofStep]
  simp only [hforward, dite_true]
  exact isFirstIndex_stepForward? hforward hseconds hstart _ hpos hbefore

/-- An estimate beyond the calendar is not corrected, and the candidates are over at once. -/
theorem index_ofStep_of_overshoots (stop : Option Instant) (hover : s.Overshoots start time) :
    (Candidates.ofStep s start time stop).index = none := by
  obtain ⟨hpos, hbefore⟩ := hover
  obtain ⟨index, hindex⟩ := Nat.exists_eq_add_of_le' hpos
  rw [hindex, show index + 2 - 1 = index + 1 from rfl] at hbefore
  have hback : stepBack s start time (index + 2) = index + 2 := by
    rw [stepBack, hbefore]
  have hnone : s.nth? start ((index + 2 : Nat) : Int) = none := by
    refine Option.eq_none_iff_forall_ne_some.2 fun b hb => ?_
    have hat := (Step.nth?_eq_some_iff hstart hseconds).1 hb
    obtain ⟨a, ha⟩ := hat.exists_of_le hforward hseconds hstart (Nat.le_succ (index + 1))
    rw [(Step.nth?_eq_some_iff hstart hseconds).2 ha] at hbefore
    cases hbefore
  rw [Candidates.ofStep]
  simp only [hforward, dite_true, hindex, hback]
  exact stepForward?_of_eq_none hforward hnone

end Forward

namespace Candidates

theorem isBefore_iff {i : Instant} : isBefore stop i = true ↔ ∀ e ∈ stop, i < e := by
  cases stop with
  | none => simp [isBefore]
  | some e => simp [isBefore]

/-- The instants that asking for the next candidate shows, up to the first time there is none. -/
inductive Yields : Candidates → List Instant → Prop where
  | nil {c : Candidates} (hnext : c.next? = none) : Yields c []
  | cons {c rest : Candidates} {i : Instant} {later : List Instant}
      (hnext : c.next? = some (i, rest)) (hlater : Yields rest later) : Yields c (i :: later)

/-- Exhausted candidates stay exhausted, however often they are asked. -/
theorem Yields.ask_eq {c : Candidates} {answers : List Instant} (h : c.Yields answers)
    (times : Nat) :
    ask times c =
      (answers.map some).take times ++ List.replicate (times - answers.length) none := by
  induction times generalizing c answers with
  | zero => rw [ask, List.take_zero, Nat.zero_sub, List.replicate_zero, List.append_nil]
  | succ times ih =>
    cases h with
    | nil hnext =>
      rw [ask, hnext]
      simp only [ih (.nil hnext), List.map_nil, List.take_nil, List.length_nil, Nat.sub_zero,
        List.nil_append, List.replicate_succ]
    | cons hnext hlater =>
      rw [ask, hnext]
      simp only [ih hlater, List.map_cons, List.take_succ_cons, List.length_cons,
        Nat.add_sub_add_right, List.cons_append]

/-- The instants that one or more steps lead to, after `time` and before the limit. -/
def instants (s : Step) (start time : Instant) (stop : Option Instant) : Set Instant :=
  {i | (∃ k : Nat, 1 ≤ k ∧ s.nth? start k = some i) ∧ time < i ∧ ∀ e ∈ stop, i < e}

/-- Asked again and again, the candidates show all of some instants in order, each once, and then
none for good. -/
def Enumerates (c : Candidates) (shown : Set Instant) : Prop :=
  ∃ answers : List Instant, answers.Pairwise (· < ·) ∧ (∀ i, i ∈ answers ↔ i ∈ shown) ∧
    ∀ times, ask times c =
      (answers.map some).take times ++ List.replicate (times - answers.length) none

theorem yields_of_index_eq_none {c : Candidates} (h : c.index = none) : c.Yields [] := by
  apply Yields.nil
  rw [next?, h, Option.bind_none]

/-- Candidates that are over at once are those of no instants. -/
theorem enumerates_of_index_eq_none {c : Candidates} {shown : Set Instant} (h : c.index = none)
    (hempty : ∀ i, i ∉ shown) : c.Enumerates shown := by
  refine ⟨[], List.Pairwise.nil, fun i => ⟨fun hi => ?_, fun hi => ?_⟩,
    (yields_of_index_eq_none h).ask_eq⟩
  · cases hi
  · exact absurd hi (hempty i)

section Forward

variable (hforward : s.isZero = false) (hseconds : 0 ≤ s.seconds) (hstart : ¬ start.IsLeap)

include hforward hseconds hstart

omit hforward in
theorem next?_eq_some_iff {index : Nat} {i : Instant} {rest : Candidates} :
    next? ⟨s, start, stop, some index⟩ = some (i, rest) ↔
      s.Reaches start index i ∧ (∀ e ∈ stop, i < e) ∧
        rest = ⟨s, start, stop, some (index + 1)⟩ := by
  simp only [next?, Option.bind_some, Option.map_eq_some_iff, Option.filter_eq_some_iff,
    Step.nth?_eq_some_iff hstart hseconds, isBefore_iff, Prod.mk.injEq]
  constructor
  · rintro ⟨_, ⟨hi, hbefore⟩, rfl, rfl⟩
    exact ⟨hi, hbefore, rfl⟩
  · rintro ⟨hi, hbefore, rfl⟩
    exact ⟨i, ⟨hi, hbefore⟩, rfl, rfl⟩

/-- From an index on the candidates are the instants of this and all later repetitions that come
before the limit: the first that does not is followed by none that does. -/
theorem exists_yields_from (stop : Option Instant) (index : Nat) :
    ∃ answers, Yields ⟨s, start, stop, some index⟩ answers ∧ answers.Pairwise (· < ·) ∧
      ∀ i, i ∈ answers ↔ ∃ k, index ≤ k ∧ s.Reaches start k i ∧ ∀ e ∈ stop, i < e := by
  generalize hroom : maxCount - index = room
  induction room using Nat.strong_induction_on generalizing index with
  | h room ih =>
    cases hnext : next? ⟨s, start, stop, some index⟩ with
    | some answer =>
      obtain ⟨i, rest⟩ := answer
      obtain ⟨hi, hbefore, rfl⟩ := (next?_eq_some_iff hseconds hstart).1 hnext
      have hcount := hi.count_lt hforward hseconds hstart
      obtain ⟨later, hyields, hsorted, hlater⟩ :=
        ih (maxCount - (index + 1)) (by omega) (index + 1) rfl
      refine ⟨i :: later, .cons hnext hyields, ?_, ?_⟩
      · refine List.pairwise_cons.2 ⟨fun j hj => ?_, hsorted⟩
        obtain ⟨k, hk, hkj, _⟩ := (hlater j).1 hj
        exact hi.lt hforward hseconds hkj hk
      · intro j
        rw [List.mem_cons, hlater]
        constructor
        · rintro (rfl | ⟨k, hk, hkj, hj⟩)
          · exact ⟨index, Nat.le_refl index, hi, hbefore⟩
          · exact ⟨k, by omega, hkj, hj⟩
        · rintro ⟨k, hk, hkj, hj⟩
          by_cases hhere : k = index
          · subst hhere
            exact Or.inl (hkj.eq hi)
          · exact Or.inr ⟨k, by omega, hkj, hj⟩
    | none =>
      refine ⟨[], .nil hnext, List.Pairwise.nil, ?_⟩
      intro j
      constructor
      · intro hj
        cases hj
      · rintro ⟨k, hk, hkj, hj⟩
        obtain ⟨i, hi⟩ := hkj.exists_of_le hforward hseconds hstart hk
        have hle := hi.le hforward hseconds hkj hk
        have hfound := (next?_eq_some_iff hseconds hstart).2
          ⟨hi, fun e he => Instant.lt_of_le_of_lt hle (hj e he), rfl⟩
        rw [hnext] at hfound
        cases hfound

omit hforward in
theorem mem_instants_iff {i : Instant} :
    i ∈ instants s start time stop ↔
      (∃ k, 1 ≤ k ∧ s.Reaches start k i) ∧ time < i ∧ ∀ e ∈ stop, i < e := by
  simp only [instants, Set.mem_ofPred_eq, Step.nth?_eq_some_iff hstart hseconds]

theorem enumerates_of_not_overshoots (hover : ¬ s.Overshoots start time) :
    (ofStep s start time stop).Enumerates (instants s start time stop) := by
  have hfirst := isFirstIndex_ofStep hforward hseconds hstart stop hover
  cases hindex : (ofStep s start time stop).index with
  | none =>
    rw [hindex] at hfirst
    apply enumerates_of_index_eq_none hindex
    intro i hi
    obtain ⟨⟨k, hk, hi⟩, hafter, _⟩ := (mem_instants_iff hseconds hstart).1 hi
    exact Instant.not_lt.2 (hfirst k i hk hi) hafter
  | some index =>
    rw [hindex] at hfirst
    obtain ⟨hpos, ⟨first, hat, hafterFirst⟩, hbefore⟩ := hfirst
    obtain ⟨answers, hyields, hsorted, hanswers⟩ :=
      exists_yields_from hforward hseconds hstart stop index
    have hself : ofStep s start time stop = ⟨s, start, stop, some index⟩ := by
      rw [← hindex]
      rfl
    refine ⟨answers, hsorted, ?_, hself ▸ hyields.ask_eq⟩
    intro i
    rw [hanswers, mem_instants_iff hseconds hstart]
    constructor
    · rintro ⟨k, hk, hi, hstop⟩
      have hle := hat.le hforward hseconds hi hk
      exact ⟨⟨k, by omega, hi⟩, Instant.lt_of_lt_of_le hafterFirst hle, hstop⟩
    · rintro ⟨⟨k, hk, hi⟩, hafter, hstop⟩
      refine ⟨k, ?_, hi, hstop⟩
      exact Nat.not_lt.1 fun hlt => Instant.not_lt.2 (hbefore k i hk hlt hi) hafter

theorem ask_of_overshoots (hover : s.Overshoots start time) (times : Nat) :
    ask times (ofStep s start time stop) = List.replicate times none := by
  have hindex := index_ofStep_of_overshoots hforward hseconds hstart stop hover
  have hask := (yields_of_index_eq_none hindex).ask_eq times
  rwa [List.map_nil, List.take_nil, List.nil_append, List.length_nil, Nat.sub_zero] at hask

theorem not_enumerates_of_overshoots (hover : s.Overshoots start time)
    (hmissed : (instants s start time stop).Nonempty) :
    ¬ (ofStep s start time stop).Enumerates (instants s start time stop) := by
  rintro ⟨answers, _, hanswers, hask⟩
  obtain ⟨i, hi⟩ := hmissed
  have hone := hask 1
  rw [ask_of_overshoots hforward hseconds hstart hover] at hone
  cases answers with
  | nil => cases (hanswers i).2 hi
  | cons first later => cases hone

end Forward

/-- The first question shows the earliest of the candidates. -/
theorem Enumerates.isFirst_next? {c : Candidates} {shown : Set Instant} (h : c.Enumerates shown) :
    IsFirst shown (c.next?.map Prod.fst) := by
  obtain ⟨answers, hsorted, hanswers, hask⟩ := h
  have hone : [c.next?.map Prod.fst] =
      (answers.map some).take 1 ++ List.replicate (1 - answers.length) none := by
    rw [← hask 1]
    unfold ask
    cases c.next? with
    | none => rfl
    | some answer => rfl
  cases answers with
  | nil =>
    cases hnext : c.next? with
    | none => exact isFirst_none fun i hi => by cases (hanswers i).2 hi
    | some answer =>
      rw [hnext] at hone
      cases hone
  | cons first later =>
    cases hnext : c.next? with
    | none =>
      rw [hnext] at hone
      cases hone
    | some answer =>
      rw [hnext] at hone
      obtain rfl : answer.1 = first := Option.some.inj (List.cons.inj hone).1
      refine ⟨(hanswers _).1 (List.mem_cons_self ..), fun i hi => ?_⟩
      rcases List.mem_cons.1 ((hanswers i).2 hi) with rfl | hlater
      · exact Instant.le_refl _
      · exact Instant.le_of_lt ((List.pairwise_cons.1 hsorted).1 i hlater)

/-- A step that does not lead forward has no candidates, which is all that lies after a time that
is not before the start. -/
theorem enumerates_of_isZero (hzero : s.isZero = true) (hseconds : 0 ≤ s.seconds)
    (hstart : ¬ start.IsLeap) (hle : start ≤ time) :
    (ofStep s start time stop).Enumerates (instants s start time stop) := by
  have hindex : (ofStep s start time stop).index = none := by
    simp only [ofStep, hzero, Bool.true_eq_false, dite_false]
  apply enumerates_of_index_eq_none hindex
  intro i hi
  obtain ⟨⟨k, _, hi⟩, hafter, _⟩ := (mem_instants_iff hseconds hstart).1 hi
  rw [hi.eq_start_of_isZero hzero hseconds] at hafter
  exact Instant.not_lt.2 hle hafter

theorem enumerates_ofInterval_of_not_overshoots {e : Interval} (stop : Option Instant)
    (hstart : ¬ start.IsLeap) (hwithin : ¬ e.step.Overshoots start time) (hle : start ≤ time) :
    (ofInterval e start time stop).Enumerates (instants e.step start time stop) := by
  have hseconds := e.step_seconds_nonneg
  cases hzero : e.step.isZero with
  | true => exact enumerates_of_isZero hzero hseconds hstart hle
  | false => exact enumerates_of_not_overshoots hzero hseconds hstart hwithin

/-- Exactly when the candidates of an interval are complete: they show every instant that steps
lead to after `time` and before the limit, in order and each once, unless there are such instants
and the estimate overshoots the calendar. In that case they show nothing at all. -/
theorem enumerates_ofInterval_iff (e : Interval) (start time : Instant) (stop : Option Instant)
    (hforward : e.step.isZero = false) (hstart : ¬ start.IsLeap) :
    ((ofInterval e start time stop).Enumerates (instants e.step start time stop) ↔
      ¬ (e.step.Overshoots start time ∧ (instants e.step start time stop).Nonempty)) ∧
    (e.step.Overshoots start time →
      ∀ times, ask times (ofInterval e start time stop) = List.replicate times none) := by
  have hseconds := e.step_seconds_nonneg
  refine ⟨⟨?_, ?_⟩, ask_of_overshoots hforward hseconds hstart⟩
  · rintro hall ⟨hover, hmissed⟩
    exact not_enumerates_of_overshoots hforward hseconds hstart hover hmissed hall
  · intro hnot
    by_cases hover : e.step.Overshoots start time
    · have hindex := index_ofStep_of_overshoots hforward hseconds hstart stop hover
      exact enumerates_of_index_eq_none hindex fun i hi => hnot ⟨hover, i, hi⟩
    · exact enumerates_of_not_overshoots hforward hseconds hstart hover

theorem enumerates_month_and_day :
    let e : Interval := .duration { months := 1, days := 1 }
    let start := Instant.midnight 0 (by decide)
    let time := Instant.midnight 104 (by decide)
    e.step.isZero = false ∧ ¬ start.IsLeap ∧ ¬ e.step.Overshoots start time ∧
      (ofInterval e start time none).Enumerates (instants e.step start time none) := by
  intro e start time
  have hforward : e.step.isZero = false := by decide
  have hstart : ¬ start.IsLeap := by decide
  have hover : ¬ e.step.Overshoots start time := by decide +kernel
  refine ⟨hforward, hstart, hover, ?_⟩
  exact (enumerates_ofInterval_iff e start time none hforward hstart).1.2 fun h => hover h.1

/-- A month and eight million weeks lead from the first of January 1970 to a day of the year
155292, and twice as far there is no calendar. Three months later, two and a half steps by the
count of months alone, that day is not found. -/
theorem not_enumerates_month_and_weeks :
    let e : Interval := .duration { months := 1, weeks := 8000000 }
    let start := Instant.midnight 0 (by decide)
    let time := Instant.midnight 104 (by decide)
    e.step.isZero = false ∧ ¬ start.IsLeap ∧ ¬ time.IsLeap ∧
      ¬ (ofInterval e start time none).Enumerates (instants e.step start time none) := by
  intro e start time
  have hforward : e.step.isZero = false := by decide
  have hstart : ¬ start.IsLeap := by decide
  have hover : e.step.Overshoots start time := by decide +kernel
  refine ⟨hforward, hstart, by decide, ?_⟩
  apply not_enumerates_of_overshoots hforward e.step_seconds_nonneg hstart hover
  have hone : (e.step.nth? start (1 : Nat)).any (time < ·) = true := by decide +kernel
  obtain ⟨i, hi, hafter⟩ := (Option.any_eq_true _ _).1 hone
  exact ⟨i, ⟨1, Nat.le_refl 1, hi⟩, of_decide_eq_true hafter, fun e he => by cases he⟩

end Candidates

end Almanac.Occurrence

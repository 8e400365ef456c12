import Mathlib.Algebra.Ring.Nat
import Almanac.Proofs.Literal.Duration

/-!
Durations by the components that are written in them. A literal is read exactly if it is put
together from components with the designators of a date and, behind a `T`, of a time. Each part of
the duration is then the number that stands last before its designator, and it is the sum of all
numbers that stand there exactly where those before the last are zero.
-/

namespace Almanac.Literal

open Period

/-- A number in digits, and the designator behind it. -/
structure WrittenComponent where
  digits : List Char
  designator : Char
  deriving DecidableEq

namespace WrittenComponent

def text (c : WrittenComponent) : List Char :=
  c.digits ++ [c.designator]

def number (c : WrittenComponent) : Nat :=
  Text.valueOfDigits c.digits

/-- One or more digits of a number of at most 32 bits, before one of the designators. -/
def IsProper (designators : List Char) (c : WrittenComponent) : Prop :=
  c.digits ≠ [] ∧ c.digits.all Char.isDigit = true ∧ c.number < Text.word32 ∧
    c.designator ∈ designators

instance (designators : List Char) (c : WrittenComponent) : Decidable (c.IsProper designators) := by
  unfold IsProper
  infer_instance

/-- What the component is read as. -/
def component (c : WrittenComponent) : Component :=
  ⟨c.number, c.designator⟩

end WrittenComponent

def dateDesignators : List Char :=
  ['Y', 'M', 'W', 'D']

def timeDesignators : List Char :=
  ['H', 'M', 'S']

/-- The numbers that stand before a designator, in order. -/
def numbersBefore (designator : Char) (components : List WrittenComponent) : List Nat :=
  (components.filter (·.designator = designator)).map (·.number)

/-- The components of a duration as they are written, those of the time behind a `T`. -/
structure WrittenDuration where
  date : List WrittenComponent
  time : Option (List WrittenComponent)
  deriving DecidableEq

namespace WrittenDuration

def timeComponents (w : WrittenDuration) : List WrittenComponent :=
  w.time.getD []

def timeText (w : WrittenDuration) : List Char :=
  w.time.elim [] ('T' :: ·.flatMap WrittenComponent.text)

def text (w : WrittenDuration) : List Char :=
  'P' :: (w.date.flatMap WrittenComponent.text ++ w.timeText)

/-- There is some component, all have their designators, and a `T` is followed by one. -/
def IsProper (w : WrittenDuration) : Prop :=
  (∀ c ∈ w.date, c.IsProper dateDesignators) ∧
    (∀ c ∈ w.timeComponents, c.IsProper timeDesignators) ∧
      w.time ≠ some [] ∧ w.date ++ w.timeComponents ≠ []

instance (w : WrittenDuration) : Decidable w.IsProper := by
  unfold IsProper
  infer_instance

/-- The duration of the numbers that stand last before each designator. -/
def duration (w : WrittenDuration) : Duration where
  years := (numbersBefore 'Y' w.date).getLastD 0
  months := (numbersBefore 'M' w.date).getLastD 0
  weeks := (numbersBefore 'W' w.date).getLastD 0
  days := (numbersBefore 'D' w.date).getLastD 0
  hours := (numbersBefore 'H' w.timeComponents).getLastD 0
  minutes := (numbersBefore 'M' w.timeComponents).getLastD 0
  seconds := (numbersBefore 'S' w.timeComponents).getLastD 0

/-- Every part of the duration is the sum of all numbers that stand before its designator, on its
side of the `T`. -/
def AddsUpTo (w : WrittenDuration) (d : Duration) : Prop :=
  (∀ part ∈ d.dateParts, part.1 = (numbersBefore part.2 w.date).sum) ∧
    ∀ part ∈ d.timeParts, part.1 = (numbersBefore part.2 w.timeComponents).sum

theorem dateParts_duration (w : WrittenDuration) :
    w.duration.dateParts =
      dateDesignators.map fun c => ((numbersBefore c w.date).getLastD 0, c) := by
  rfl

theorem timeParts_duration (w : WrittenDuration) :
    w.duration.timeParts =
      timeDesignators.map fun c => ((numbersBefore c w.timeComponents).getLastD 0, c) := by
  rfl

end WrittenDuration

variable {components : List WrittenComponent} {designators : List Char} {text read : List Char}

theorem numbersBefore_cons (designator : Char) (c : WrittenComponent)
    (components : List WrittenComponent) :
    numbersBefore designator (c :: components) =
      if c.designator = designator then c.number :: numbersBefore designator components
      else numbersBefore designator components := by
  unfold numbersBefore
  rw [List.filter_cons]
  split <;> simp_all

theorem getLastD_numbersBefore_cons (designator : Char) (c : WrittenComponent)
    (components : List WrittenComponent) (number : Nat) :
    (numbersBefore designator (c :: components)).getLastD number =
      (numbersBefore designator components).getLastD
        (if c.designator = designator then c.number else number) := by
  rw [numbersBefore_cons]
  split
  · exact List.getLastD_cons ..
  · rfl

theorem readComponents_written (hnone : ∀ d ∈ designators, d.isDigit = false)
    (h : ∀ c ∈ components, c.IsProper designators) :
    readComponents [] (components.flatMap WrittenComponent.text) =
      .ok (components.map WrittenComponent.component) := by
  induction components with
  | nil => rfl
  | cons c components ih =>
    obtain ⟨⟨hsome, hall, hlt, hmem⟩, hcomponents⟩ := List.forall_mem_cons.1 h
    have hdigits : ∀ d ∈ c.digits, d.isDigit = true := List.all_eq_true.1 hall
    have hvalue := Text.readCount32?_of_isDigit hsome hdigits hlt
    rw [List.flatMap_cons, WrittenComponent.text, List.append_assoc, List.singleton_append,
      readComponents_component hsome hdigits hvalue (hnone c.designator hmem), ih hcomponents]
    rfl

theorem foldlM_setDateComponent_written (h : ∀ c ∈ components, c.designator ∈ dateDesignators)
    (d : Duration) :
    (components.map WrittenComponent.component).foldlM setDateComponent d =
      .ok { d with
        years := (numbersBefore 'Y' components).getLastD d.years
        months := (numbersBefore 'M' components).getLastD d.months
        weeks := (numbersBefore 'W' components).getLastD d.weeks
        days := (numbersBefore 'D' components).getLastD d.days } := by
  induction components generalizing d with
  | nil => rfl
  | cons c components ih =>
    obtain ⟨hc, hcomponents⟩ := List.forall_mem_cons.1 h
    simp only [dateDesignators, List.mem_cons, List.not_mem_nil, or_false] at hc
    rw [List.map_cons, List.foldlM_cons]
    simp only [getLastD_numbersBefore_cons, WrittenComponent.component]
    rcases hc with hc | hc | hc | hc
    all_goals
      simp only [setDateComponent, hc]
      exact ih hcomponents _

theorem foldlM_setTimeComponent_written (h : ∀ c ∈ components, c.designator ∈ timeDesignators)
    (d : Duration) :
    (components.map WrittenComponent.component).foldlM setTimeComponent d =
      .ok { d with
        hours := (numbersBefore 'H' components).getLastD d.hours
        minutes := (numbersBefore 'M' components).getLastD d.minutes
        seconds := (numbersBefore 'S' components).getLastD d.seconds } := by
  induction components generalizing d with
  | nil => rfl
  | cons c components ih =>
    obtain ⟨hc, hcomponents⟩ := List.forall_mem_cons.1 h
    simp only [timeDesignators, List.mem_cons, List.not_mem_nil, or_false] at hc
    rw [List.map_cons, List.foldlM_cons]
    simp only [getLastD_numbersBefore_cons, WrittenComponent.component]
    rcases hc with hc | hc | hc
    all_goals
      simp only [setTimeComponent, hc]
      exact ih hcomponents _

theorem isDigit_or_mem_of_mem_flatMap_text {c : Char}
    (h : ∀ c ∈ components, c.IsProper designators)
    (hc : c ∈ components.flatMap WrittenComponent.text) : c.isDigit = true ∨ c ∈ designators := by
  obtain ⟨written, hwritten, hc⟩ := List.mem_flatMap.1 hc
  obtain ⟨-, hdigits, -, hmem⟩ := h written hwritten
  rcases List.mem_append.1 hc with hc | hc
  · exact Or.inl (List.all_eq_true.1 hdigits c hc)
  · rw [List.mem_singleton.1 hc]
    exact Or.inr hmem

namespace WrittenDuration

variable {w : WrittenDuration}

theorem IsProper.cut_eq (h : w.IsProper) :
    Text.cut 'T' (w.date.flatMap WrittenComponent.text ++ w.timeText) =
      (w.date.flatMap WrittenComponent.text, w.time.map (·.flatMap WrittenComponent.text)) := by
  have hmark : 'T' ∉ w.date.flatMap WrittenComponent.text := by
    intro hmem
    rcases isDigit_or_mem_of_mem_flatMap_text h.1 hmem with hdigit | hdesignator
    · cases hdigit
    · revert hdesignator
      decide
  unfold timeText
  cases w.time with
  | none =>
    rw [Option.elim_none, List.append_nil, Text.cut_of_not_mem hmark]
    rfl
  | some time =>
    rw [Option.elim_some, Text.cut_append_cons hmark]
    rfl

theorem IsProper.readTimeComponents_eq (h : w.IsProper) :
    readTimeComponents (w.time.map (·.flatMap WrittenComponent.text)) =
      .ok (w.timeComponents.map WrittenComponent.component) := by
  have hread := readComponents_written (by simp [timeDesignators]) h.2.1
  have hsome := h.2.2.1
  unfold timeComponents at hread ⊢
  cases htime : w.time with
  | none => rfl
  | some time =>
    rw [htime] at hread hsome
    cases time with
    | nil => exact absurd rfl hsome
    | cons c time =>
      have hne : (c :: time).flatMap WrittenComponent.text ≠ [] := by
        simp [WrittenComponent.text]
      obtain ⟨first, rest, htext⟩ := List.exists_cons_of_ne_nil hne
      rw [Option.getD_some, htext] at hread
      rw [Option.map_some, htext]
      exact hread

/-- A duration that is written from its components is read as the numbers that stand last. -/
theorem IsProper.readDuration_eq (h : w.IsProper) : readDuration w.text = .ok w.duration := by
  have hdate := readComponents_written (by simp [dateDesignators]) h.1
  obtain ⟨withDate, hwithDate, hduration⟩ : ∃ withDate : Duration,
      (w.date.map WrittenComponent.component).foldlM setDateComponent {} = .ok withDate ∧
        (w.timeComponents.map WrittenComponent.component).foldlM setTimeComponent withDate =
          .ok w.duration :=
    ⟨_, foldlM_setDateComponent_written (fun c hc => (h.1 c hc).2.2.2) {},
      foldlM_setTimeComponent_written (fun c hc => (h.2.1 c hc).2.2.2) _⟩
  have hfilled : ((w.date.map WrittenComponent.component).isEmpty &&
      (w.timeComponents.map WrittenComponent.component).isEmpty) = false := by
    refine Bool.eq_false_iff.2 fun hempty => h.2.2.2 ?_
    rw [Bool.and_eq_true, List.isEmpty_map, List.isEmpty_map, List.isEmpty_iff,
      List.isEmpty_iff] at hempty
    rw [hempty.1, hempty.2, List.append_nil]
  unfold text
  rw [readDuration, h.cut_eq]
  simp only [hdate, hwithDate, h.readTimeComponents_eq, hduration, hfilled, bind, Except.bind,
    Bool.false_eq_true, if_false]

end WrittenDuration

theorem eq_valueOfDigits_of_readCount32?_eq_some {digits : List Char} {value : Nat}
    (hdigits : ∀ d ∈ digits, d.isDigit = true) (h : Text.readCount32? digits = some value) :
    value = Text.valueOfDigits digits := by
  unfold Text.readCount32? at h
  split at h
  case h_1 rest => cases hdigits '+' (List.mem_cons_self ..)
  case h_2 =>
    obtain ⟨hread, -⟩ := Option.filter_eq_some_iff.1 h
    unfold Text.readNatural? at hread
    exact (Option.some.inj (Option.ite_none_right_eq_some.1 hread).2).symm

/-- Components that are read are written one behind the other, the first with the digits that have
been read before. -/
theorem exists_written_of_readComponents_eq_ok {found : List Component}
    (hdigits : ∀ d ∈ read, d.isDigit = true) (h : readComponents read text = .ok found)
    (hdesignators : ∀ c ∈ found, c.designator ∈ designators) :
    ∃ components : List WrittenComponent, (∀ c ∈ components, c.IsProper designators) ∧
      read ++ text = components.flatMap WrittenComponent.text ∧
        found = components.map WrittenComponent.component := by
  induction text generalizing read found with
  | nil =>
    rw [readComponents] at h
    split at h
    case isTrue hempty =>
      cases h
      rw [List.isEmpty_iff.1 hempty]
      exact ⟨[], List.forall_mem_nil _, rfl, rfl⟩
    case isFalse => cases h
  | cons c text ih =>
    rw [readComponents] at h
    split at h
    case isTrue hc =>
      obtain ⟨components, hproper, htext, hfound⟩ := ih
        (List.forall_mem_append.2 ⟨hdigits, List.forall_mem_singleton.2 hc⟩) h hdesignators
      refine ⟨components, hproper, ?_, hfound⟩
      rw [← htext, List.append_assoc]
      rfl
    case isFalse =>
      split at h
      case isTrue => cases h
      case isFalse hsome =>
        split at h
        case h_1 => cases h
        case h_2 value hvalue =>
          obtain ⟨later, hlater, rfl⟩ := exists_of_map_eq_ok h
          obtain ⟨hc, hdesignators⟩ := List.forall_mem_cons.1 hdesignators
          obtain ⟨components, hproper, htext, rfl⟩ :=
            ih (List.forall_mem_nil _) hlater hdesignators
          have hnumber := eq_valueOfDigits_of_readCount32?_eq_some hdigits hvalue
          have hlt := Text.lt_of_readCount32?_eq_some hvalue
          rw [hnumber] at hlt ⊢
          refine ⟨⟨read, c⟩ :: components, List.forall_mem_cons.2 ⟨?_, hproper⟩, ?_, rfl⟩
          · exact ⟨fun hnil => hsome (List.isEmpty_iff.2 hnil), List.all_eq_true.2 hdigits, hlt, hc⟩
          · rw [List.flatMap_cons, ← htext, WrittenComponent.text, List.append_assoc]
            rfl

theorem mem_of_foldlM_eq_ok {set : Duration → Component → Except Fault Duration}
    (hset : ∀ d c next, set d c = .ok next → c.designator ∈ designators)
    {d last : Duration} {found : List Component} (h : found.foldlM set d = .ok last) :
    ∀ c ∈ found, c.designator ∈ designators := by
  induction found generalizing d with
  | nil => exact List.forall_mem_nil _
  | cons c found ih =>
    rw [List.foldlM_cons] at h
    obtain ⟨next, hnext, h⟩ := exists_of_bind_eq_ok h
    exact List.forall_mem_cons.2 ⟨hset d c next hnext, ih h⟩

theorem mem_of_setDateComponent_eq_ok (d : Duration) (c : Component) (next : Duration)
    (h : setDateComponent d c = .ok next) : c.designator ∈ dateDesignators := by
  unfold setDateComponent at h
  split at h
  all_goals simp_all [dateDesignators]

theorem mem_of_setTimeComponent_eq_ok (d : Duration) (c : Component) (next : Duration)
    (h : setTimeComponent d c = .ok next) : c.designator ∈ timeDesignators := by
  unfold setTimeComponent at h
  split at h
  all_goals simp_all [timeDesignators]

theorem exists_written_of_readTimeComponents_eq_ok {time : Option (List Char)}
    {found : List Component} (h : readTimeComponents time = .ok found)
    (hdesignators : ∀ c ∈ found, c.designator ∈ timeDesignators) :
    ∃ components : Option (List WrittenComponent),
      (∀ c ∈ components.getD [], c.IsProper timeDesignators) ∧
        components.elim [] ('T' :: ·.flatMap WrittenComponent.text) = time.elim [] ('T' :: ·) ∧
          components ≠ some [] ∧ found = (components.getD []).map WrittenComponent.component := by
  unfold readTimeComponents at h
  split at h
  case h_1 =>
    cases h
    exact ⟨none, List.forall_mem_nil _, rfl, nofun, rfl⟩
  case h_2 => cases h
  case h_3 time hsome =>
    obtain ⟨components, hproper, htext, rfl⟩ :=
      exists_written_of_readComponents_eq_ok (List.forall_mem_nil _) h hdesignators
    rw [List.nil_append] at htext
    refine ⟨some components, hproper, congrArg _ htext.symm, fun hempty => hsome ?_, rfl⟩
    rw [htext, Option.some.inj hempty]
    rfl

/-- What is read as a duration has been written from components. -/
theorem exists_written_of_readDuration_eq_ok {d : Duration} (h : readDuration text = .ok d) :
    ∃ w : WrittenDuration, w.IsProper ∧ w.text = text := by
  unfold readDuration at h
  split at h
  case h_2 => cases h
  case h_1 body =>
    rcases hcut : Text.cut 'T' body with ⟨datePart, timePart⟩
    rw [hcut] at h
    obtain ⟨dateComponents, hdate, h⟩ := exists_of_bind_eq_ok h
    obtain ⟨withDate, hwithDate, h⟩ := exists_of_bind_eq_ok h
    obtain ⟨timeComponents, htime, h⟩ := exists_of_bind_eq_ok h
    obtain ⟨duration, hduration, h⟩ := exists_of_bind_eq_ok h
    obtain ⟨date, hproperDate, rfl, rfl⟩ :=
      exists_written_of_readComponents_eq_ok (List.forall_mem_nil _) hdate
        (mem_of_foldlM_eq_ok mem_of_setDateComponent_eq_ok hwithDate)
    obtain ⟨time, hproperTime, htimeText, htimeSome, rfl⟩ :=
      exists_written_of_readTimeComponents_eq_ok htime
        (mem_of_foldlM_eq_ok mem_of_setTimeComponent_eq_ok hduration)
    refine ⟨⟨date, time⟩, ⟨hproperDate, hproperTime, htimeSome, fun hempty => ?_⟩, ?_⟩
    · obtain ⟨rfl, htimeEmpty⟩ : date = [] ∧ time.getD [] = [] := List.append_eq_nil_iff.1 hempty
      rw [htimeEmpty] at h
      cases h
    · rw [WrittenDuration.text, WrittenDuration.timeText, htimeText, Text.append_of_cut_eq hcut]

theorem getLastD_le_add_sum (first : Nat) (numbers : List Nat) :
    numbers.getLastD first ≤ first + numbers.sum := by
  induction numbers generalizing first with
  | nil => exact Nat.le_refl first
  | cons n numbers ih =>
    rw [List.getLastD_cons, List.sum_cons]
    exact (ih n).trans (Nat.le_add_left ..)

theorem getLastD_eq_add_sum_iff (first : Nat) (numbers : List Nat) :
    numbers.getLastD first = first + numbers.sum ↔
      (first :: numbers).Pairwise fun n _ => n = 0 := by
  induction numbers generalizing first with
  | nil => simp
  | cons n numbers ih =>
    have hle := getLastD_le_add_sum n numbers
    have hfirst : (∀ m ∈ n :: numbers, first = 0) ↔ first = 0 :=
      ⟨fun h => h n (List.mem_cons_self ..), fun h _ _ => h⟩
    rw [List.pairwise_cons, hfirst, ← ih n, List.getLastD_cons, List.sum_cons]
    omega

/-- The last of some numbers is their sum exactly if those before it are zero. -/
theorem getLastD_eq_sum_iff (numbers : List Nat) :
    numbers.getLastD 0 = numbers.sum ↔ numbers.Pairwise fun n _ => n = 0 := by
  have h := getLastD_eq_add_sum_iff 0 numbers
  rw [Nat.zero_add, List.pairwise_cons] at h
  exact h.trans (and_iff_right fun _ _ => rfl)

/-- Before each designator the last number is the sum of all exactly if every component that is
followed by one with its designator is zero. -/
theorem getLastD_numbersBefore_eq_sum_iff
    (hdesignators : ∀ c ∈ components, c.designator ∈ designators) :
    (∀ designator ∈ designators, (numbersBefore designator components).getLastD 0 =
        (numbersBefore designator components).sum) ↔
      components.Pairwise fun c later => later.designator = c.designator → c.number = 0 := by
  have hpairs (designator : Char) :
      (numbersBefore designator components).getLastD 0 =
          (numbersBefore designator components).sum ↔
        components.Pairwise fun c later =>
          c.designator = designator → later.designator = designator → c.number = 0 := by
    rw [getLastD_eq_sum_iff, numbersBefore, List.pairwise_map, List.pairwise_filter]
    simp only [decide_eq_true_eq]
  simp only [hpairs, List.pairwise_iff_getElem]
  constructor
  · intro h i j hi hj hij hsame
    exact h _ (hdesignators _ (List.getElem_mem hi)) i j hi hj hij rfl hsame
  · intro h designator _ i j hi hj hij hdesignator hlater
    exact h i j hi hj hij (hlater.trans hdesignator.symm)

/-- Each part of a duration that is read is the number that stands last before its designator, and
the parts are the sums of all numbers that stand there exactly if no component but a zero is
followed by one with its designator on its side of the `T`. -/
theorem parts_are_sums_iff {literal : List Char} {d : Duration}
    (h : Literal.read .duration literal = .ok (.duration d)) :
    (∃ w : WrittenDuration, w.IsProper ∧ w.text = literal) ∧
      ∀ w : WrittenDuration, w.IsProper → w.text = literal →
        (∀ part ∈ d.dateParts, part.1 = (numbersBefore part.2 w.date).getLastD 0) ∧
        (∀ part ∈ d.timeParts, part.1 = (numbersBefore part.2 w.timeComponents).getLastD 0) ∧
        (w.AddsUpTo d ↔
          (w.date.Pairwise fun c later => later.designator = c.designator → c.number = 0) ∧
            w.timeComponents.Pairwise
              fun c later => later.designator = c.designator → c.number = 0) := by
  obtain ⟨_, hread, hd⟩ := exists_of_map_eq_ok h
  cases hd
  refine ⟨exists_written_of_readDuration_eq_ok hread, fun w hproper htext => ?_⟩
  rw [← htext, hproper.readDuration_eq] at hread
  cases hread
  have hdate := getLastD_numbersBefore_eq_sum_iff fun c hc => (hproper.1 c hc).2.2.2
  have htime := getLastD_numbersBefore_eq_sum_iff fun c hc => (hproper.2.1 c hc).2.2.2
  rw [← hdate, ← htime, WrittenDuration.AddsUpTo, w.dateParts_duration, w.timeParts_duration]
  simp only [List.forall_mem_map, implies_true, true_and]

/-- A zero that is written twice is no loss: `P1M0D02DT05M` has the parts that are written. -/
theorem parts_are_sums_zero_days :
    let literal := ['P', '1', 'M', '0', 'D', '0', '2', 'D', 'T', '0', '5', 'M']
    let w : WrittenDuration :=
      ⟨[⟨['1'], 'M'⟩, ⟨['0'], 'D'⟩, ⟨['0', '2'], 'D'⟩], some [⟨['0', '5'], 'M'⟩]⟩
    Literal.read .duration literal = .ok (.duration { months := 1, days := 2, minutes := 5 }) ∧
      w.IsProper ∧ w.text = literal ∧ w.AddsUpTo { months := 1, days := 2, minutes := 5 } := by
  intro literal w
  have hproper : w.IsProper := by decide
  refine ⟨rfl, hproper, rfl, ?_⟩
  exact ((parts_are_sums_iff rfl).2 w hproper rfl).2.2.2 (by decide)

/-- Of the days in `P1D2D` the first one is lost. -/
theorem not_parts_are_sums_two_days :
    ¬ ∀ (literal : List Char) (d : Duration),
      Literal.read .duration literal = .ok (.duration d) →
        ∀ w : WrittenDuration, w.IsProper → w.text = literal → w.AddsUpTo d := by
  intro h
  have hsum := h ['P', '1', 'D', '2', 'D'] { days := 2 } rfl ⟨[⟨['1'], 'D'⟩, ⟨['2'], 'D'⟩], none⟩
    (by decide) rfl
  have hdays : (2 : Nat) = [1, 2].sum := hsum.1 (2, 'D') (by decide)
  cases hdays

end Almanac.Literal

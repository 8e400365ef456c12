import Mathlib.Data.List.TakeWhile
import Almanac.Literal.Reading
import Almanac.Proofs.Outcome
import Almanac.Proofs.Text.Numeral
import Almanac.Proofs.Text.Split

/-!
Durations that are read again. A duration is written as its parts that are not zero; each of them is
read as one component, and the parts that have been left out stay zero. If all are left out, what
is written is no duration.
-/

namespace Almanac

open Period

namespace Text

variable {separator : Char} {text rest : List Char} {n : Nat}

theorem cut_append_cons (h : separator ∉ text) :
    cut separator (text ++ separator :: rest) = (text, some rest) := by
  have hne : ∀ c ∈ text, decide (c ≠ separator) = true := fun c hc =>
    decide_eq_true fun heq => h (heq ▸ hc)
  unfold cut
  rw [List.dropWhile_append_of_pos hne, List.takeWhile_append_of_pos hne]
  simp

theorem cut_of_not_mem (h : separator ∉ text) : cut separator text = (text, none) := by
  have hne : ∀ c ∈ text, decide (c ≠ separator) = true := fun c hc =>
    decide_eq_true fun heq => h (heq ▸ hc)
  have hnone : text.dropWhile (· ≠ separator) = [] := List.dropWhile_eq_nil_iff.2 hne
  unfold cut
  rw [hnone]

/-- A text that is cut is its parts with the separator between them. -/
theorem append_of_cut_eq {before : List Char} {after : Option (List Char)}
    (h : cut separator text = (before, after)) :
    before ++ after.elim [] (separator :: ·) = text := by
  have hsplit : text.takeWhile (· ≠ separator) ++ text.dropWhile (· ≠ separator) = text :=
    List.takeWhile_append_dropWhile
  have hhead := List.head?_dropWhile_not (fun c => decide (c ≠ separator)) text
  unfold cut at h
  split at h
  case h_1 =>
    cases h
    exact List.append_nil text
  case h_2 c rest hrest =>
    cases h
    rw [hrest] at hsplit hhead
    simp only [List.head?_cons, decide_eq_false_iff_not, not_not] at hhead
    rw [hhead] at hsplit
    exact hsplit

theorem readCount32?_of_isDigit (hsome : text ≠ []) (hdigits : ∀ c ∈ text, c.isDigit = true)
    (hlt : valueOfDigits text < word32) : readCount32? text = some (valueOfDigits text) := by
  have hread : readNatural? text = some (valueOfDigits text) :=
    if_pos ⟨hsome, List.all_eq_true.2 hdigits⟩
  unfold readCount32?
  split
  case h_1 rest => cases hdigits '+' (List.mem_cons_self ..)
  case h_2 =>
    rw [hread]
    simp [hlt]

theorem readCount32?_digits (h : n < word32) : readCount32? (digits n) = some n := by
  have hlt : valueOfDigits (digits n) < word32 := by rwa [valueOfDigits_digits]
  rw [readCount32?_of_isDigit (digits_ne_nil n) (fun c hc => isDigit_of_mem_digits hc) hlt,
    valueOfDigits_digits]

theorem lt_of_readCount32?_eq_some (h : readCount32? text = some n) : n < word32 := by
  unfold readCount32? at h
  split at h
  all_goals simpa using (Option.filter_eq_some_iff.1 h).2

end Text

namespace Period.Duration

/-- The parts that stand before the mark of the time, with their designators. -/
def dateParts (d : Duration) : List (Nat × Char) :=
  [(d.years, 'Y'), (d.months, 'M'), (d.weeks, 'W'), (d.days, 'D')]

/-- The parts that stand after the mark of the time. -/
def timeParts (d : Duration) : List (Nat × Char) :=
  [(d.hours, 'H'), (d.minutes, 'M'), (d.seconds, 'S')]

/-- Every part is a number of at most 32 bits. -/
def IsWord32 (d : Duration) : Prop :=
  ∀ part ∈ d.dateParts ++ d.timeParts, part.1 < Text.word32

def partsText (parts : List (Nat × Char)) : List Char :=
  parts.flatMap fun part => componentText part.1 part.2

theorem dateText_eq_partsText (d : Duration) : d.dateText = partsText d.dateParts := by
  simp [dateText, partsText, dateParts]

theorem timeText_eq_partsText (d : Duration) : d.timeText = partsText d.timeParts := by
  simp [timeText, partsText, timeParts]

theorem isDigit_or_mem_of_mem_partsText {parts : List (Nat × Char)} {c : Char}
    (h : c ∈ partsText parts) : c.isDigit = true ∨ c ∈ parts.map Prod.snd := by
  obtain ⟨part, hpart, hc⟩ := List.mem_flatMap.1 h
  unfold componentText at hc
  split at hc
  · cases hc
  · rcases List.mem_append.1 hc with hc | hc
    · exact Or.inl (Text.isDigit_of_mem_digits hc)
    · rw [List.mem_singleton.1 hc]
      exact Or.inr (List.mem_map_of_mem hpart)

theorem partsText_eq_nil_iff {parts : List (Nat × Char)} :
    partsText parts = [] ↔ ∀ part ∈ parts, part.1 = 0 := by
  unfold partsText
  rw [List.flatMap_eq_nil_iff]
  refine forall₂_congr fun part _ => ?_
  unfold componentText
  split <;> simp [*]

/-- The letters that stand in the text of a duration. -/
def letters : List Char :=
  ['P', 'Y', 'M', 'W', 'D', 'T', 'H', 'S']

theorem isDigit_or_mem_letters {d : Duration} {c : Char} (h : c ∈ d.text.toList) :
    c.isDigit = true ∨ c ∈ letters := by
  have hparts {parts : List (Nat × Char)} (hletters : parts.map Prod.snd ⊆ letters)
      (hc : c ∈ partsText parts) : c.isDigit = true ∨ c ∈ letters :=
    (isDigit_or_mem_of_mem_partsText hc).imp_right fun hc => hletters hc
  have hdate : d.dateParts.map Prod.snd ⊆ letters := by simp [dateParts, letters]
  have htime : d.timeParts.map Prod.snd ⊆ letters := by simp [timeParts, letters]
  rw [text, String.toList_ofList, dateText_eq_partsText, timeText_eq_partsText] at h
  rcases List.mem_cons.1 h with rfl | h
  · exact Or.inr (by decide)
  rcases List.mem_append.1 h with h | h
  · exact hparts hdate h
  split at h
  · cases h
  rcases List.mem_cons.1 h with rfl | h
  · exact Or.inr (by decide)
  · exact hparts htime h

end Period.Duration

namespace Literal

open Period.Duration

variable {read rest : List Char} {parts : List (Nat × Char)}

/-- The components that a part is written as: none if it is zero. -/
def componentsOf (part : Nat × Char) : List Component :=
  if part.1 = 0 then [] else [⟨part.1, part.2⟩]

theorem readComponents_digits {digits : List Char} (h : ∀ c ∈ digits, c.isDigit = true) :
    readComponents read (digits ++ rest) = readComponents (read ++ digits) rest := by
  induction digits generalizing read with
  | nil => simp
  | cons c digits ih =>
    obtain ⟨hc, hdigits⟩ := List.forall_mem_cons.1 h
    rw [List.cons_append, readComponents, if_pos hc, ih hdigits, List.append_assoc]
    rfl

theorem readComponents_component {digits : List Char} {value : Nat} {designator : Char}
    (hsome : digits ≠ []) (hdigits : ∀ c ∈ digits, c.isDigit = true)
    (hvalue : Text.readCount32? digits = some value) (hdesignator : designator.isDigit = false) :
    readComponents [] (digits ++ designator :: rest) =
      (readComponents [] rest).map (⟨value, designator⟩ :: ·) := by
  have hfilled : digits.isEmpty = false := List.isEmpty_eq_false_iff.2 hsome
  rw [readComponents_digits hdigits, List.nil_append, readComponents]
  simp only [hdesignator, hfilled, hvalue, Bool.false_eq_true, if_false]

theorem readComponents_componentText {part : Nat × Char} (hword : part.1 < Text.word32)
    (hdesignator : part.2.isDigit = false) :
    readComponents [] (componentText part.1 part.2 ++ rest) =
      (readComponents [] rest).map (componentsOf part ++ ·) := by
  unfold componentText componentsOf
  split
  · cases hrest : readComponents [] rest with
    | error e => exact hrest
    | ok components => exact hrest
  · rw [List.append_assoc, List.singleton_append,
      readComponents_component (Text.digits_ne_nil part.1)
        (fun c hc => Text.isDigit_of_mem_digits hc) (Text.readCount32?_digits hword) hdesignator]
    rfl

/-- What has been written is read as one component for each part that is not zero. -/
theorem readComponents_partsText (hword : ∀ part ∈ parts, part.1 < Text.word32)
    (hdesignators : ∀ part ∈ parts, part.2.isDigit = false) :
    readComponents [] (partsText parts) = .ok (parts.flatMap componentsOf) := by
  induction parts with
  | nil => rfl
  | cons part parts ih =>
    obtain ⟨hpart, hword⟩ := List.forall_mem_cons.1 hword
    obtain ⟨hdesignator, hdesignators⟩ := List.forall_mem_cons.1 hdesignators
    unfold partsText at ih ⊢
    rw [List.flatMap_cons, readComponents_componentText hpart hdesignator,
      ih hword hdesignators, List.flatMap_cons]
    rfl

theorem flatMap_componentsOf_eq_nil_iff :
    parts.flatMap componentsOf = [] ↔ ∀ part ∈ parts, part.1 = 0 := by
  rw [List.flatMap_eq_nil_iff]
  refine forall₂_congr fun part _ => ?_
  unfold componentsOf
  split <;> simp [*]

/-- A component that is left out because it is zero need not be set. -/
theorem foldlM_componentsOf {set : Duration → Component → Except Fault Duration} {d next : Duration}
    {part : Nat × Char} (hset : set d ⟨part.1, part.2⟩ = .ok next)
    (hzero : part.1 = 0 → next = d) : (componentsOf part).foldlM set d = .ok next := by
  unfold componentsOf
  split
  case isTrue h =>
    rw [hzero h]
    rfl
  case isFalse =>
    rw [List.foldlM_cons, hset]
    rfl

theorem foldlM_append_eq_ok {set : Duration → Component → Except Fault Duration}
    {d next last : Duration} {components more : List Component}
    (h : components.foldlM set d = .ok next) (hmore : more.foldlM set next = .ok last) :
    (components ++ more).foldlM set d = .ok last := by
  rw [List.foldlM_append, h]
  exact hmore

theorem foldlM_setDateComponent (d : Duration) :
    (d.dateParts.flatMap componentsOf).foldlM setDateComponent {} =
      .ok { years := d.years, months := d.months, weeks := d.weeks, days := d.days } := by
  simp only [dateParts, List.flatMap_cons, List.flatMap_nil]
  refine foldlM_append_eq_ok (foldlM_componentsOf rfl fun h => ?_) <|
    foldlM_append_eq_ok (foldlM_componentsOf rfl fun h => ?_) <|
    foldlM_append_eq_ok (foldlM_componentsOf rfl fun h => ?_) <|
    foldlM_append_eq_ok (foldlM_componentsOf rfl fun h => ?_) rfl
  all_goals simp only at h; simp only [h]

theorem foldlM_setTimeComponent (d : Duration) :
    (d.timeParts.flatMap componentsOf).foldlM setTimeComponent
      { years := d.years, months := d.months, weeks := d.weeks, days := d.days } = .ok d := by
  simp only [timeParts, List.flatMap_cons, List.flatMap_nil]
  refine foldlM_append_eq_ok (foldlM_componentsOf rfl fun h => ?_) <|
    foldlM_append_eq_ok (foldlM_componentsOf rfl fun h => ?_) <|
    foldlM_append_eq_ok (foldlM_componentsOf rfl fun h => ?_) rfl
  all_goals simp only at h; simp only [h]

theorem readTimeComponents_timeText {d : Duration} (hword : d.IsWord32) :
    readTimeComponents (if d.timeText.isEmpty then none else some d.timeText) =
      .ok (d.timeParts.flatMap componentsOf) := by
  have hread := readComponents_partsText
    (fun part hpart => hword part (List.mem_append_right _ hpart)) (by simp [timeParts])
  rw [timeText_eq_partsText]
  cases htext : partsText d.timeParts with
  | nil => rw [flatMap_componentsOf_eq_nil_iff.2 (partsText_eq_nil_iff.1 htext)]; rfl
  | cons c text =>
    rw [htext] at hread
    exact hread

/-- A duration with some part that is not zero is read as what has been written. -/
theorem readDuration_text {d : Duration} (hword : d.IsWord32) (hsome : d ≠ {}) :
    readDuration d.text.toList = .ok d := by
  have hmark : 'T' ∉ d.dateText := by
    rw [dateText_eq_partsText]
    intro hmem
    rcases isDigit_or_mem_of_mem_partsText hmem with hdigit | hdesignator
    · cases hdigit
    · simp [dateParts] at hdesignator
  have hcut : Text.cut 'T' (d.dateText ++ if d.timeText.isEmpty then [] else 'T' :: d.timeText) =
      (d.dateText, if d.timeText.isEmpty then none else some d.timeText) := by
    split
    · rw [List.append_nil, Text.cut_of_not_mem hmark]
    · rw [Text.cut_append_cons hmark]
  have hdate : readComponents [] d.dateText = .ok (d.dateParts.flatMap componentsOf) := by
    rw [dateText_eq_partsText]
    exact readComponents_partsText (fun part hpart => hword part (List.mem_append_left _ hpart))
      (by simp [dateParts])
  have hfilled : ((d.dateParts.flatMap componentsOf).isEmpty &&
      (d.timeParts.flatMap componentsOf).isEmpty) = false := by
    refine Bool.eq_false_iff.2 fun hempty => hsome ?_
    rw [Bool.and_eq_true, List.isEmpty_iff, List.isEmpty_iff, flatMap_componentsOf_eq_nil_iff,
      flatMap_componentsOf_eq_nil_iff] at hempty
    obtain ⟨hdate, htime⟩ := hempty
    simp [dateParts, timeParts] at hdate htime
    cases d
    simp_all
  unfold Duration.text
  rw [String.toList_ofList, readDuration, hcut]
  simp only [hdate, foldlM_setDateComponent, readTimeComponents_timeText hword,
    foldlM_setTimeComponent, hfilled, bind, Except.bind, Bool.false_eq_true, if_false]

theorem lt_word32_of_readComponents_eq_ok {text : List Char} {components : List Component}
    (h : readComponents read text = .ok components) :
    ∀ c ∈ components, c.value < Text.word32 := by
  induction text generalizing read components with
  | nil =>
    rw [readComponents] at h
    split at h <;> cases h
    exact fun c hc => nomatch hc
  | cons c text ih =>
    rw [readComponents] at h
    split at h
    · exact ih h
    · split at h
      · cases h
      · split at h
        case h_1 => cases h
        case h_2 value hvalue =>
          obtain ⟨components, hcomponents, rfl⟩ := exists_of_map_eq_ok h
          exact List.forall_mem_cons.2 ⟨Text.lt_of_readCount32?_eq_some hvalue, ih hcomponents⟩

theorem isWord32_of_foldlM_eq_ok {set : Duration → Component → Except Fault Duration}
    (hset : ∀ d c next, d.IsWord32 → c.value < Text.word32 → set d c = .ok next → next.IsWord32)
    {d last : Duration} {components : List Component} (hd : d.IsWord32)
    (hcomponents : ∀ c ∈ components, c.value < Text.word32)
    (h : components.foldlM set d = .ok last) : last.IsWord32 := by
  induction components generalizing d with
  | nil =>
    cases h
    exact hd
  | cons c components ih =>
    obtain ⟨hc, hcomponents⟩ := List.forall_mem_cons.1 hcomponents
    rw [List.foldlM_cons] at h
    obtain ⟨next, hnext, h⟩ := exists_of_bind_eq_ok h
    exact ih (hset d c next hd hc hnext) hcomponents h

theorem isWord32_of_setDateComponent_eq_ok {d next : Duration} {c : Component} (hd : d.IsWord32)
    (hc : c.value < Text.word32) (h : setDateComponent d c = .ok next) : next.IsWord32 := by
  unfold setDateComponent at h
  split at h <;> cases h
  all_goals simp [IsWord32, dateParts, timeParts, hc] at hd ⊢; omega

theorem isWord32_of_setTimeComponent_eq_ok {d next : Duration} {c : Component} (hd : d.IsWord32)
    (hc : c.value < Text.word32) (h : setTimeComponent d c = .ok next) : next.IsWord32 := by
  unfold setTimeComponent at h
  split at h <;> cases h
  all_goals simp [IsWord32, dateParts, timeParts, hc] at hd ⊢; omega

theorem isWord32_of_readDuration_eq_ok {text : List Char} {d : Duration}
    (h : readDuration text = .ok d) : d.IsWord32 := by
  unfold readDuration at h
  split at h
  case h_1 body =>
    obtain ⟨dateComponents, hdate, h⟩ := exists_of_bind_eq_ok h
    obtain ⟨withDate, hwithDate, h⟩ := exists_of_bind_eq_ok h
    obtain ⟨timeComponents, htime, h⟩ := exists_of_bind_eq_ok h
    obtain ⟨duration, hduration, h⟩ := exists_of_bind_eq_ok h
    have hnone : Duration.IsWord32 {} := by simp [IsWord32, dateParts, timeParts, Text.word32]
    have hdateWord := isWord32_of_foldlM_eq_ok
      (fun _ _ _ => isWord32_of_setDateComponent_eq_ok) hnone
      (lt_word32_of_readComponents_eq_ok hdate) hwithDate
    have htimeBound : ∀ c ∈ timeComponents, c.value < Text.word32 := by
      unfold readTimeComponents at htime
      split at htime
      case h_1 =>
        cases htime
        exact fun c hc => nomatch hc
      case h_2 => cases htime
      case h_3 => exact lt_word32_of_readComponents_eq_ok htime
    have hword := isWord32_of_foldlM_eq_ok
      (fun _ _ _ => isWord32_of_setTimeComponent_eq_ok) hdateWord htimeBound hduration
    split at h <;> cases h
    exact hword
  case h_2 => cases h

/-- A duration without any part is written as its mark alone, which is not read. -/
theorem readDuration_text_zero :
    readDuration ({} : Duration).text.toList = .error .componentMissing :=
  rfl

/-- A duration that has been read is read again from its text exactly if some part is not zero. -/
theorem read_text_of_read_iff {literal : List Char} {d : Duration}
    (h : Literal.read .duration literal = .ok (.duration d)) :
    (Literal.read .duration d.text.toList = .ok (.duration d) ↔ d ≠ {}) ∧
      (d = {} → Literal.read .duration d.text.toList = .error .componentMissing) := by
  have hzero (hd : d = {}) :
      Literal.read .duration d.text.toList = .error .componentMissing := by
    rw [hd, Literal.read, readDuration_text_zero]
    rfl
  refine ⟨⟨fun hagain hd => ?_, fun hsome => ?_⟩, hzero⟩
  · rw [hzero hd] at hagain
    cases hagain
  · obtain ⟨_, hread, hd⟩ := exists_of_map_eq_ok h
    cases hd
    rw [Literal.read, readDuration_text (isWord32_of_readDuration_eq_ok hread) hsome]
    rfl

/-- The duration of `P01Y0M2DT0H` is written without the zeros, and read again. -/
theorem read_text_of_read_year_and_days :
    let literal := ['P', '0', '1', 'Y', '0', 'M', '2', 'D', 'T', '0', 'H']
    let d : Duration := { years := 1, days := 2 }
    Literal.read .duration literal = .ok (.duration d) ∧
      Literal.read .duration d.text.toList = .ok (.duration d) := by
  intro literal d
  have hread : Literal.read .duration literal = .ok (.duration d) := rfl
  exact ⟨hread, (read_text_of_read_iff hread).1.2 (by decide)⟩

/-- The duration of `P0D` is not read again. -/
theorem not_read_text_of_read_no_days :
    ¬ ∀ (literal : List Char) (d : Duration),
      Literal.read .duration literal = .ok (.duration d) →
        Literal.read .duration d.text.toList = .ok (.duration d) := by
  intro h
  have hagain := h ['P', '0', 'D'] {} rfl
  cases hagain

end Literal

end Almanac

import Mathlib.Data.List.Basic
import Almanac.Literal.Layout
import Almanac.Proofs.Text.Numeral
import Almanac.Proofs.Text.Split

/-!
What the items of a layout do: each takes some characters off the front of the text and notes one
number at most.
-/

namespace Almanac.Literal

open Text

/-- The number that has been noted for a part. -/
def Numbers.value (n : Numbers) : Part → Int
  | .year => n.year
  | .month => n.month
  | .day => n.day
  | .hour => n.hour
  | .minute => n.minute
  | .second => n.second

variable {part other : Part} {text rest : List Char} {n m : Numbers}

theorem Numbers.value_of_set?_eq_some {value : Nat} (h : n.set? part value = some m) :
    m.value part = value ∧ ∀ other ≠ part, m.value other = n.value other := by
  cases part with
  | year =>
    cases h
    refine ⟨rfl, fun other hother => ?_⟩
    cases other <;> first | rfl | exact absurd rfl hother
  | month | day | hour | minute | second =>
    simp only [Numbers.set?, Option.ite_none_right_eq_some] at h
    obtain ⟨-, hset⟩ := h
    cases hset
    refine ⟨rfl, fun other hother => ?_⟩
    cases other <;> first | rfl | exact absurd rfl hother

theorem takeDigits?_eq_some {width : Nat} {taken : List Char}
    (h : takeDigits? width text = some (taken, rest)) :
    taken = (text.takeWhile Char.isDigit).take width ∧ taken ≠ [] ∧
      rest = text.drop taken.length := by
  simp only [takeDigits?, Option.ite_none_left_eq_some] at h
  obtain ⟨hsome, h⟩ := h
  cases h
  exact ⟨rfl, fun hnil => hsome (by rw [hnil]; rfl), rfl⟩

/-- A number is a signed year, or digits behind blanks. -/
theorem readNumber?_eq_some (h : readNumber? part text n = some (m, rest)) :
    (part = .year ∧ ∃ sign digits negative, dropBlanks text = sign :: digits ∧
      (sign = '+' ∨ sign = '-') ∧ readSignedYear? negative digits n = some (m, rest)) ∨
    ∃ taken, takeDigits? part.width (dropBlanks text) = some (taken, rest) ∧
      n.set? part (valueOfDigits taken) = some m := by
  unfold readNumber? at h
  split at h
  case h_1 digits hblanks =>
    exact Or.inl ⟨rfl, '-', digits, true, hblanks, Or.inr rfl, h⟩
  case h_2 digits hblanks =>
    exact Or.inl ⟨rfl, '+', digits, false, hblanks, Or.inl rfl, h⟩
  case h_3 =>
    obtain ⟨⟨taken, left⟩, htaken, h⟩ := Option.bind_eq_some_iff.1 h
    obtain ⟨numbers, hnumbers, h⟩ := Option.bind_eq_some_iff.1 h
    cases h
    exact Or.inr ⟨taken, htaken, hnumbers⟩

theorem readExact?_eq_some (h : readExact? part text n = some (m, rest)) :
    ∃ taken, takeDigits? part.width text = some (taken, rest) ∧
      n.set? part (valueOfDigits taken) = some m := by
  unfold readExact? at h
  obtain ⟨⟨taken, left⟩, htaken, h⟩ := Option.bind_eq_some_iff.1 h
  dsimp only at h
  split at h
  case isTrue =>
    obtain ⟨numbers, hnumbers, h⟩ := Option.bind_eq_some_iff.1 h
    cases h
    exact ⟨taken, htaken, hnumbers⟩
  case isFalse => cases h

theorem readSignedYear?_eq_some {negative : Bool}
    (h : readSignedYear? negative text n = some (m, rest)) :
    rest = text.dropWhile Char.isDigit ∧ ∀ other ≠ .year, m.value other = n.value other := by
  simp only [readSignedYear?, Option.ite_none_left_eq_some] at h
  obtain ⟨-, h⟩ := h
  cases h
  refine ⟨rfl, fun other hother => ?_⟩
  cases other <;> first | rfl | exact absurd rfl hother

theorem readFraction?_eq_some (h : readFraction? text n = some (m, rest)) :
    rest <:+ text ∧ ∀ part, m.value part = n.value part := by
  unfold readFraction? at h
  split at h
  case h_1 digits =>
    simp only [Option.ite_none_left_eq_some] at h
    obtain ⟨-, h⟩ := h
    cases h
    refine ⟨(List.dropWhile_suffix _).trans (List.suffix_cons _ _), fun part => ?_⟩
    cases part <;> rfl
  case h_2 =>
    cases h
    exact ⟨List.suffix_rfl, fun _ => rfl⟩

theorem takeDigits?_suffix {width : Nat} {taken : List Char}
    (h : takeDigits? width text = some (taken, rest)) : rest <:+ text := by
  obtain ⟨-, -, rfl⟩ := takeDigits?_eq_some h
  exact List.drop_suffix _ _

theorem readOffsetTime?_eq_some {negative : Bool}
    (h : readOffsetTime? negative text n = some (m, rest)) :
    rest <:+ text ∧ ∀ part, m.value part = n.value part := by
  unfold readOffsetTime? at h
  obtain ⟨⟨clock, afterHour⟩, hhour, h⟩ := Option.bind_eq_some_iff.1 h
  obtain ⟨_, hhour, -⟩ := readExact?_eq_some hhour
  dsimp only at h
  split at h
  case h_1 afterMark _ =>
    obtain ⟨_, hmark, h⟩ := Option.bind_eq_some_iff.1 h
    cases hmark
    obtain ⟨⟨clock, afterMinute⟩, hminute, h⟩ := Option.bind_eq_some_iff.1 h
    obtain ⟨_, hminute, -⟩ := readExact?_eq_some hminute
    cases h
    refine ⟨?_, fun part => by cases part <;> rfl⟩
    exact (takeDigits?_suffix hminute).trans
      ((List.suffix_cons _ _).trans (takeDigits?_suffix hhour))
  case h_2 => cases h

theorem readOffset?_eq_some (h : readOffset? text n = some (m, rest)) :
    rest <:+ text ∧ ∀ part, m.value part = n.value part := by
  unfold readOffset? at h
  split at h
  case h_1 | h_2 =>
    cases h
    exact ⟨List.suffix_cons _ _, fun _ => rfl⟩
  case h_3 | h_4 | h_5 =>
    obtain ⟨hsuffix, hvalue⟩ := readOffsetTime?_eq_some h
    exact ⟨hsuffix.trans (List.suffix_cons _ _), hvalue⟩
  case h_6 => cases h

/-- The item notes no number for the part. -/
def Item.Spares (part : Part) : Item → Prop
  | .number noted => noted ≠ part
  | .exact noted => noted ≠ part
  | _ => True

variable {item : Item} {items : Layout}

theorem readNumber?_suffix (h : readNumber? part text n = some (m, rest)) : rest <:+ text := by
  have hblanks : dropBlanks text <:+ text := List.dropWhile_suffix _
  rcases readNumber?_eq_some h with ⟨-, sign, digits, _, htext, -, hyear⟩ | ⟨_, htaken, -⟩
  · obtain ⟨rfl, -⟩ := readSignedYear?_eq_some hyear
    rw [htext] at hblanks
    exact (List.dropWhile_suffix _).trans ((List.suffix_cons sign digits).trans hblanks)
  · exact (takeDigits?_suffix htaken).trans hblanks

theorem Item.read?_mark_eq_some {options : List Char}
    (h : (Item.mark options).read? text n = some (m, rest)) :
    ∃ c, text = c :: rest ∧ c ∈ options ∧ m = n := by
  cases text with
  | nil => cases h
  | cons c others =>
    simp only [Item.read?, Option.ite_none_right_eq_some] at h
    obtain ⟨hc, h⟩ := h
    cases h
    exact ⟨c, rfl, hc, rfl⟩

theorem Item.read?_suffix (h : item.read? text n = some (m, rest)) : rest <:+ text := by
  cases item with
  | number part => exact readNumber?_suffix h
  | exact part =>
    obtain ⟨_, htaken, -⟩ := readExact?_eq_some h
    exact takeDigits?_suffix htaken
  | mark options =>
    obtain ⟨c, rfl, -, -⟩ := Item.read?_mark_eq_some h
    exact List.suffix_cons c rest
  | fraction => exact (readFraction?_eq_some h).1
  | offset => exact (readOffset?_eq_some h).1

/-- A number is noted for one part only. -/
theorem Item.Spares.value_eq (hspares : item.Spares part)
    (h : item.read? text n = some (m, rest)) : m.value part = n.value part := by
  cases item with
  | number noted =>
    rcases readNumber?_eq_some h with ⟨rfl, _, _, _, -, -, hyear⟩ | ⟨_, -, hset⟩
    · exact (readSignedYear?_eq_some hyear).2 part hspares.symm
    · exact (Numbers.value_of_set?_eq_some hset).2 part hspares.symm
  | exact noted =>
    obtain ⟨_, -, hset⟩ := readExact?_eq_some h
    exact (Numbers.value_of_set?_eq_some hset).2 part hspares.symm
  | mark options =>
    obtain ⟨_, -, -, rfl⟩ := Item.read?_mark_eq_some h
    rfl
  | fraction => exact (readFraction?_eq_some h).2 part
  | offset => exact (readOffset?_eq_some h).2 part

theorem Item.eq_fraction_of_read?_nil (h : item.read? [] n = some (m, rest)) :
    item = .fraction := by
  cases item with
  | number noted =>
    rcases readNumber?_eq_some h with ⟨-, _, _, _, htext, -⟩ | ⟨taken, htaken, -⟩
    · cases htext
    · obtain ⟨rfl, hsome, -⟩ := takeDigits?_eq_some htaken
      exact absurd (List.take_nil ..) hsome
  | exact noted =>
    obtain ⟨taken, htaken, -⟩ := readExact?_eq_some h
    obtain ⟨rfl, hsome, -⟩ := takeDigits?_eq_some htaken
    exact absurd (List.take_nil ..) hsome
  | mark options => cases h
  | fraction => rfl
  | offset => cases h

namespace Layout

theorem read?_cons_eq_some (h : read? (item :: items) text n = some m) :
    ∃ next rest, item.read? text n = some (next, rest) ∧ read? items rest next = some m := by
  rw [read?] at h
  obtain ⟨⟨next, rest⟩, hitem, hrest⟩ := Option.bind_eq_some_iff.1 h
  exact ⟨next, rest, hitem, hrest⟩

theorem value_eq_of_read? {layout : Layout} (hspares : ∀ item ∈ layout, item.Spares part)
    (h : layout.read? text n = some m) : m.value part = n.value part := by
  induction layout generalizing text n with
  | nil =>
    cases text with
    | nil => cases h; rfl
    | cons c rest => cases h
  | cons item items ih =>
    obtain ⟨next, rest, hitem, hrest⟩ := read?_cons_eq_some h
    obtain ⟨hfirst, hothers⟩ := List.forall_mem_cons.1 hspares
    exact (ih hothers hrest).trans (hfirst.value_eq hitem)

/-- A text that is read has one of the characters of every mark. -/
theorem exists_mem_of_read? {layout : Layout} {options : List Char}
    (hmark : .mark options ∈ layout) (h : layout.read? text n = some m) :
    ∃ c ∈ text, c ∈ options := by
  induction layout generalizing text n with
  | nil => cases hmark
  | cons item items ih =>
    obtain ⟨next, rest, hitem, hrest⟩ := read?_cons_eq_some h
    rcases List.mem_cons.1 hmark with rfl | hmark
    · obtain ⟨c, rfl, hc, -⟩ := Item.read?_mark_eq_some hitem
      exact ⟨c, List.mem_cons_self .., hc⟩
    · obtain ⟨c, hc, hoption⟩ := ih hmark hrest
      exact ⟨c, (Item.read?_suffix hitem).subset hc, hoption⟩

end Layout

end Almanac.Literal

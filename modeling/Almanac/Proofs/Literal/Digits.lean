import Mathlib.Data.List.TakeWhile
import Almanac.Literal.Reading
import Almanac.Proofs.Calendar.Numbers
import Almanac.Proofs.Literal.Layout
import Almanac.Proofs.Outcome

/-!
Literals in digits alone. Only dates and times can be written so, and the first digits, as many as
the year or the hour has, can be told from what the literal stands for. So a literal that begins
with a zero never stands for the same as one that does not.
-/

namespace Almanac.Literal

open Calendar Text

variable {part : Part} {text rest : List Char} {n m : Numbers} {item : Item} {layout : Layout}

/-- The layout begins with a number, does not end behind it and does not note it again. -/
def Layout.LeadsWith (part : Part) : Layout → Prop
  | .number first :: item :: items =>
    first = part ∧ item ≠ .fraction ∧ ∀ later ∈ item :: items, later.Spares part
  | _ => False

theorem leadsWith_year_of_mem_dateLayouts (h : layout ∈ dateLayouts) : layout.LeadsWith .year := by
  simp only [dateLayouts, List.mem_cons, List.not_mem_nil, or_false] at h
  rcases h with rfl | rfl <;> simp [Layout.LeadsWith, Item.Spares, extendedDate, basicDate]

theorem leadsWith_hour_of_mem_timeLayouts (h : layout ∈ timeLayouts) : layout.LeadsWith .hour := by
  simp only [timeLayouts, List.mem_cons, List.not_mem_nil, or_false] at h
  rcases h with rfl | rfl | rfl | rfl | rfl <;>
    simp [Layout.LeadsWith, Item.Spares, extendedFraction, extendedSecond, extendedMinute,
      basicSecond, basicMinute]

section IsDigit

variable (hdigits : ∀ c ∈ text, c.isDigit = true)

include hdigits

theorem dropBlanks_of_isDigit : dropBlanks text = text :=
  dropBlanks_eq_self fun c hc => isBlank_eq_false_of_isDigit (hdigits c hc)

theorem readNumber?_of_isDigit (h : readNumber? part text n = some (m, rest)) :
    rest = text.drop part.width ∧ m.value part = valueOfDigits (text.take part.width) := by
  rcases readNumber?_eq_some h with ⟨-, sign, digits, _, htext, hsign, -⟩ | ⟨taken, htaken, hset⟩
  · rw [dropBlanks_of_isDigit hdigits] at htext
    have hfirst := hdigits sign (htext ▸ List.mem_cons_self ..)
    rcases hsign with rfl | rfl <;> cases hfirst
  · rw [dropBlanks_of_isDigit hdigits] at htaken
    obtain ⟨rfl, -, rfl⟩ := takeDigits?_eq_some htaken
    have hwhile : text.takeWhile Char.isDigit = text := List.takeWhile_eq_self_iff.2 hdigits
    rw [hwhile] at hset ⊢
    refine ⟨?_, (Numbers.value_of_set?_eq_some hset).1⟩
    simp

/-- Of digits alone a layout takes the first as the number that it begins with, and more have to
follow. -/
theorem Layout.LeadsWith.of_read? (hlead : layout.LeadsWith part)
    (h : layout.read? text n = some m) :
    part.width < text.length ∧ m.value part = valueOfDigits (text.take part.width) := by
  unfold LeadsWith at hlead
  split at hlead
  case h_1 first item items =>
    obtain ⟨rfl, hitem, hspares⟩ := hlead
    obtain ⟨next, rest, hfirst, hrest⟩ := read?_cons_eq_some h
    obtain ⟨rfl, hvalue⟩ := readNumber?_of_isDigit hdigits hfirst
    refine ⟨?_, (value_eq_of_read? hspares hrest).trans hvalue⟩
    by_contra hshort
    rw [List.drop_eq_nil_of_le (Nat.not_lt.1 hshort)] at hrest
    obtain ⟨_, _, hnil, -⟩ := read?_cons_eq_some hrest
    exact hitem (Item.eq_fraction_of_read?_nil hnil)
  case h_2 => cases hlead

end IsDigit

/-- A layout that begins with a number does not read a sign in front of digits alone: a signed year
takes all of them. -/
theorem Layout.LeadsWith.read?_sign_eq_none {sign : Char} (hlead : layout.LeadsWith part)
    (hsign : sign = '+' ∨ sign = '-') (hdigits : ∀ c ∈ text, c.isDigit = true) :
    layout.read? (sign :: text) n = none := by
  refine Option.eq_none_iff_forall_ne_some.2 fun m h => ?_
  unfold LeadsWith at hlead
  split at hlead
  case h_1 first item items =>
    obtain ⟨rfl, hitem, -⟩ := hlead
    obtain ⟨next, rest, hfirst, hrest⟩ := read?_cons_eq_some h
    have hblanks : dropBlanks (sign :: text) = sign :: text := by
      rcases hsign with rfl | rfl <;> rfl
    rcases readNumber?_eq_some hfirst with ⟨-, _, digits, _, htext, -, hyear⟩ | ⟨_, htaken, -⟩
    · -- Nothing is left for the item that has to follow the year.
      rw [hblanks] at htext
      cases htext
      obtain ⟨rfl, -⟩ := readSignedYear?_eq_some hyear
      rw [List.dropWhile_eq_nil_iff.2 hdigits] at hrest
      obtain ⟨_, _, hnil, -⟩ := read?_cons_eq_some hrest
      exact hitem (Item.eq_fraction_of_read?_nil hnil)
    · rw [hblanks] at htaken
      obtain ⟨htaken, hsome, -⟩ := takeDigits?_eq_some htaken
      refine hsome (htaken.trans ?_)
      rcases hsign with rfl | rfl <;> exact List.take_nil ..
  case h_2 => cases hlead

/-- The most characters of digits alone that an item takes. -/
def Item.width : Item → Nat
  | .number part => part.width
  | .exact part => part.width
  | .mark _ => 1
  | _ => 0

def Layout.width : Layout → Nat
  | [] => 0
  | item :: items => item.width + Layout.width items

theorem Item.length_le_of_read? (hdigits : ∀ c ∈ text, c.isDigit = true)
    (h : item.read? text n = some (m, rest)) : text.length ≤ item.width + rest.length := by
  cases item with
  | number part =>
    obtain ⟨rfl, -⟩ := readNumber?_of_isDigit hdigits h
    simp only [Item.width, List.length_drop]
    omega
  | exact part =>
    obtain ⟨taken, htaken, -⟩ := readExact?_eq_some h
    obtain ⟨rfl, -, rfl⟩ := takeDigits?_eq_some htaken
    simp only [Item.width, List.length_drop, List.length_take]
    omega
  | mark options =>
    obtain ⟨c, rfl, -, -⟩ := Item.read?_mark_eq_some h
    simp only [Item.width, List.length_cons]
    omega
  | fraction =>
    simp only [Item.read?, readFraction?] at h
    split at h
    case h_1 => cases hdigits '.' (List.mem_cons_self ..)
    case h_2 =>
      cases h
      exact Nat.le_add_left _ _
  | offset =>
    simp only [Item.read?, readOffset?] at h
    split at h
    case h_6 => cases h
    all_goals cases hdigits _ (List.mem_cons_self ..)

theorem Layout.length_le_of_read? (hdigits : ∀ c ∈ text, c.isDigit = true)
    (h : layout.read? text n = some m) : text.length ≤ layout.width := by
  induction layout generalizing text n with
  | nil =>
    cases text with
    | nil => exact Nat.zero_le _
    | cons c rest => cases h
  | cons item items ih =>
    obtain ⟨next, rest, hitem, hrest⟩ := read?_cons_eq_some h
    have hsuffix := Item.read?_suffix hitem
    have hfirst := Item.length_le_of_read? hdigits hitem
    have hothers := ih (fun c hc => hdigits c (hsuffix.subset hc)) hrest
    rw [width]
    omega

theorem firstReading?_eq_some {α : Type} {layouts : List Layout} {make? : Numbers → Option α}
    {a : α} (h : firstReading? layouts make? text = some a) :
    ∃ layout ∈ layouts, ∃ m, layout.read? text {} = some m ∧ make? m = some a := by
  obtain ⟨layout, hlayout, h⟩ := List.exists_of_findSome?_eq_some h
  obtain ⟨m, hread, hmake⟩ := Option.bind_eq_some_iff.1 h
  exact ⟨layout, hlayout, m, hread, hmake⟩

/-- What a date or a time begins with. -/
def Value.leading? : Value → Option (Part × Int)
  | .date d => some (.year, d.year)
  | .time t => some (.hour, t.hour)
  | _ => none

variable {kind : Kind} {v : Value}

theorem stripZulu_eq_self (h : 'Z' ∉ text) : stripZulu text = text := by
  unfold stripZulu
  rw [if_neg fun hlast => h (List.mem_of_getLast? hlast)]

theorem mem_of_mem_stripZulu {c : Char} (h : c ∈ stripZulu text) : c ∈ text := by
  unfold stripZulu at h
  split at h
  · exact List.dropLast_subset _ h
  · exact h

/-- An instant is written with a mark between its date and its time. -/
theorem exists_mem_of_readDateTime_eq_ok {i : Instant} (h : readDateTime text = .ok i) :
    ∃ c ∈ text, c ∈ ['T', 't', ' '] := by
  unfold readDateTime at h
  split at h
  case h_1 _ hfirst =>
    obtain ⟨layout, hlayout, m, hread, -⟩ := firstReading?_eq_some hfirst
    rw [List.mem_singleton.1 hlayout] at hread
    exact Layout.exists_mem_of_read? (by simp [offsetDateTime]) hread
  case h_2 =>
    split at h
    case h_1 _ hfirst =>
      obtain ⟨layout, hlayout, m, hread, -⟩ := firstReading?_eq_some hfirst
      have hmark : .mark ['T'] ∈ layout := by
        simp only [dateTimeLayouts, List.mem_cons, List.not_mem_nil, or_false] at hlayout
        rcases hlayout with rfl | rfl | rfl | rfl | rfl <;> simp
      obtain ⟨c, hc, hmem⟩ := Layout.exists_mem_of_read? hmark hread
      exact ⟨c, mem_of_mem_stripZulu hc, List.mem_cons.2 (Or.inl (List.mem_singleton.1 hmem))⟩
    case h_2 => cases h

theorem exists_of_readDate_eq_ok {d : Date} (h : readDate text = .ok d) :
    ∃ layout ∈ dateLayouts, ∃ m, layout.read? text {} = some m ∧ d.year = m.value .year := by
  unfold readDate at h
  split at h
  case h_1 _ hfirst =>
    cases h
    obtain ⟨layout, hlayout, m, hread, hmake⟩ := firstReading?_eq_some hfirst
    exact ⟨layout, hlayout, m, hread, Date.year_of_ofNumbers?_eq_some hmake⟩
  case h_2 => cases h

theorem exists_of_readTime_eq_ok {t : TimeOfDay} (hzulu : 'Z' ∉ text) (h : readTime text = .ok t) :
    ∃ layout ∈ timeLayouts, ∃ m, layout.read? text {} = some m ∧ t.hour = m.value .hour := by
  unfold readTime at h
  rw [stripZulu_eq_self hzulu] at h
  split at h
  case h_1 _ hfirst =>
    cases h
    obtain ⟨layout, hlayout, m, hread, hmake⟩ := firstReading?_eq_some hfirst
    exact ⟨layout, hlayout, m, hread,
      congrArg Nat.cast (TimeOfDay.hour_of_ofNumbers?_eq_some hmake)⟩
  case h_2 => cases h

theorem mem_of_readDuration_eq_ok {d : Period.Duration} (h : readDuration text = .ok d) :
    'P' ∈ text := by
  unfold readDuration at h
  split at h
  case h_1 => exact List.mem_cons_self ..
  case h_2 => cases h

theorem mem_of_readRepetition_eq_ok {r : Repetition} (h : readRepetition text = .ok r) :
    'R' ∈ text := by
  obtain ⟨count, hcount, -⟩ := exists_of_bind_eq_ok h
  cases hsplit : split '/' text with
  | nil => exact absurd hsplit (split_ne_nil '/' text)
  | cons first pieces =>
    rw [hsplit] at hcount
    have hmark : 'R' ∈ first := by
      unfold readCount at hcount
      split at hcount
      case h_1 heq =>
        rw [show first = ['R'] from heq]
        exact List.mem_cons_self ..
      case h_2 count _ heq =>
        rw [show first = 'R' :: count from heq]
        exact List.mem_cons_self ..
      case h_3 => cases hcount
    exact mem_of_mem_split (hsplit ▸ List.mem_cons_self ..) hmark

/-- Only dates and times are written without letters and blanks. -/
theorem exists_leadsWith_of_read_eq_ok
    (hnumeric : ∀ c ∈ text, c.isDigit = true ∨ c = '+' ∨ c = '-') (h : read kind text = .ok v) :
    ∃ part layout m, Layout.LeadsWith part layout ∧ layout.width ≤ 10 ∧
      layout.read? text {} = some m ∧ v.leading? = some (part, m.value part) := by
  have hnot : ∀ c ∈ ['T', 't', ' ', 'P', 'R', 'Z'], c ∉ text := by
    intro c hc hmem
    have hnot : ¬ (c.isDigit = true ∨ c = '+' ∨ c = '-') := by
      simp only [List.mem_cons, List.not_mem_nil, or_false] at hc
      rcases hc with rfl | rfl | rfl | rfl | rfl | rfl <;> decide
    exact hnot (hnumeric c hmem)
  cases kind with
  | dateTime =>
    obtain ⟨i, hi, -⟩ := exists_of_map_eq_ok h
    obtain ⟨c, hc, hmark⟩ := exists_mem_of_readDateTime_eq_ok hi
    exact absurd hc (hnot c (List.mem_append_left ['P', 'R', 'Z'] hmark))
  | date =>
    obtain ⟨d, hd, rfl⟩ := exists_of_map_eq_ok h
    obtain ⟨layout, hlayout, m, hread, hyear⟩ := exists_of_readDate_eq_ok hd
    have hwidth : ∀ layout ∈ dateLayouts, Layout.width layout ≤ 10 := by decide
    exact ⟨.year, layout, m, leadsWith_year_of_mem_dateLayouts hlayout, hwidth layout hlayout,
      hread, by rw [Value.leading?, hyear]⟩
  | time =>
    obtain ⟨t, ht, rfl⟩ := exists_of_map_eq_ok h
    obtain ⟨layout, hlayout, m, hread, hhour⟩ :=
      exists_of_readTime_eq_ok (hnot 'Z' (by decide)) ht
    have hwidth : ∀ layout ∈ timeLayouts, Layout.width layout ≤ 10 := by decide
    exact ⟨.hour, layout, m, leadsWith_hour_of_mem_timeLayouts hlayout, hwidth layout hlayout,
      hread, by rw [Value.leading?, hhour]⟩
  | duration =>
    obtain ⟨d, hd, -⟩ := exists_of_map_eq_ok h
    exact absurd (mem_of_readDuration_eq_ok hd) (hnot 'P' (by decide))
  | repeatingInterval =>
    obtain ⟨r, hr, -⟩ := exists_of_map_eq_ok h
    exact absurd (mem_of_readRepetition_eq_ok hr) (hnot 'R' (by decide))

/-- A literal that would also be a number has no sign. -/
theorem isDigit_of_read_eq_ok {value : Int} (h : read kind text = .ok v)
    (hnumber : readInteger? text = some value) : ∀ c ∈ text, c.isDigit = true := by
  rcases isDigit_of_readInteger?_eq_some hnumber with hdigits | ⟨sign, rest, hsign, rfl, hrest⟩
  · exact hdigits
  · have hnumeric : ∀ c ∈ sign :: rest, c.isDigit = true ∨ c = '+' ∨ c = '-' :=
      List.forall_mem_cons.2 ⟨Or.inr hsign, fun c hc => Or.inl (hrest c hc)⟩
    obtain ⟨part, layout, m, hlead, -, hread, -⟩ := exists_leadsWith_of_read_eq_ok hnumeric h
    rw [hlead.read?_sign_eq_none hsign hrest] at hread
    cases hread

/-- A literal in digits alone is short, and it begins with the year or the hour that it stands for
without ending there. -/
theorem leading_of_read_eq_ok (hdigits : ∀ c ∈ text, c.isDigit = true)
    (h : read kind text = .ok v) :
    text.length ≤ 10 ∧ ∃ part : Part, part.width < text.length ∧
      v.leading? = some (part, ((valueOfDigits (text.take part.width) : Nat) : Int)) := by
  obtain ⟨part, layout, m, hlead, hwidth, hread, hvalue⟩ :=
    exists_leadsWith_of_read_eq_ok (fun c hc => Or.inl (hdigits c hc)) h
  obtain ⟨hlonger, hm⟩ := hlead.of_read? hdigits hread
  refine ⟨Nat.le_trans (Layout.length_le_of_read? hdigits hread) hwidth, part, hlonger, ?_⟩
  rw [hvalue, hm]

/-- Of two literals in digits alone that stand for the same neither begins with a zero or both do.
-/
theorem head?_eq_zero_of_read_eq_ok {other : List Char} {otherKind : Kind}
    (hdigits : ∀ c ∈ text, c.isDigit = true) (hothers : ∀ c ∈ other, c.isDigit = true)
    (h : read kind text = .ok v) (hother : read otherKind other = .ok v)
    (hzero : text.head? = some '0') : other.head? = some '0' := by
  obtain ⟨-, part, hlonger, hvalue⟩ := leading_of_read_eq_ok hdigits h
  obtain ⟨-, part', hlonger', hvalue'⟩ := leading_of_read_eq_ok hothers hother
  obtain ⟨rfl, hsame⟩ := Prod.mk.inj (Option.some.inj (hvalue.symm.trans hvalue'))
  have hwidth : 0 < part.width := by cases part <;> decide
  have hhead (digits : List Char) : (digits.take part.width).head? = digits.head? := by
    rw [List.head?_take, if_neg (by omega)]
  have htaken : ∀ c ∈ text.take part.width, c.isDigit = true :=
    fun c hc => hdigits c (List.mem_of_mem_take hc)
  have htaken' : ∀ c ∈ other.take part.width, c.isDigit = true :=
    fun c hc => hothers c (List.mem_of_mem_take hc)
  have hlength := List.length_take_of_le (Nat.le_of_lt hlonger)
  have hlength' := List.length_take_of_le (Nat.le_of_lt hlonger')
  -- As many digits are worth less than a power of ten with a zero in front, and not without one.
  by_contra hnot
  have hlow := valueOfDigits_lt_of_head?_eq_zero htaken ((hhead text).trans hzero)
  have hsome : other.take part.width ≠ [] := List.ne_nil_of_length_pos (by omega)
  have hhigh := le_valueOfDigits htaken' hsome (by rw [hhead]; exact hnot)
  rw [hlength] at hlow
  rw [hlength'] at hhigh
  omega

end Almanac.Literal

import Almanac.Proofs.Calendar.Instant
import Almanac.Proofs.Literal.Digits

/-!
Dates and times of day in the forms in which they are written. Each form is read by a layout of its
own, and none of the layouts before that one reads it as something else. So what is read is what is
written, with zero for the parts that the form leaves out.
-/

namespace Almanac.Literal

open Calendar Text

/-- How a date is written, with a hyphen between its numbers or without. -/
inductive DateForm where
  | extended
  | basic

/-- How a time of day is written. With colons there may be a fraction of so many digits. -/
inductive TimeForm where
  | second
  | fraction (places : Nat)
  | minute
  | basicSecond
  | basicMinute

def DateForm.text (d : Date) : DateForm → List Char
  | extended => paddedDigits 4 d.year.toNat ++ '-' :: paddedDigits 2 d.month ++
      '-' :: paddedDigits 2 d.dayOfMonth
  | basic => paddedDigits 4 d.year.toNat ++ paddedDigits 2 d.month ++ paddedDigits 2 d.dayOfMonth

def DateForm.layout : DateForm → Layout
  | extended => extendedDate
  | basic => basicDate

namespace TimeForm

/-- Fractions have one digit to nine. -/
def IsProper : TimeForm → Prop
  | fraction places => 1 ≤ places ∧ places ≤ 9
  | _ => True

/-- The first digits of the fraction of a second. -/
def leadingDigits (places : Nat) (t : TimeOfDay) : List Char :=
  paddedDigits places (t.nano / 10 ^ (9 - places))

def text (t : TimeOfDay) : TimeForm → List Char
  | second => paddedDigits 2 t.hour ++ ':' :: paddedDigits 2 t.minute ++
      ':' :: paddedDigits 2 t.secondOfMinute
  | fraction places => paddedDigits 2 t.hour ++ ':' :: paddedDigits 2 t.minute ++
      ':' :: paddedDigits 2 t.secondOfMinute ++ '.' :: leadingDigits places t
  | minute => paddedDigits 2 t.hour ++ ':' :: paddedDigits 2 t.minute
  | basicSecond => paddedDigits 2 t.hour ++ paddedDigits 2 t.minute ++
      paddedDigits 2 t.secondOfMinute
  | basicMinute => paddedDigits 2 t.hour ++ paddedDigits 2 t.minute

def layout : TimeForm → Layout
  | second => extendedSecond
  | fraction _ => extendedFraction
  | minute => extendedMinute
  | basicSecond => Literal.basicSecond
  | basicMinute => Literal.basicMinute

/-- How the date is written in front of such a time. -/
def dateForm : TimeForm → DateForm
  | second | fraction _ | minute => .extended
  | basicSecond | basicMinute => .basic

/-- The second of the day as far as the form shows it. -/
def keptSecond (t : TimeOfDay) : TimeForm → Nat
  | minute | basicMinute => 60 * (t.second / 60)
  | _ => t.second

/-- The nanoseconds as far as the form shows them. -/
def keptNano (t : TimeOfDay) : TimeForm → Nat
  | fraction places => t.nano / 10 ^ (9 - places) * 10 ^ (9 - places)
  | _ => 0

theorem keptNano_le (t : TimeOfDay) (form : TimeForm) : form.keptNano t ≤ t.nano := by
  cases form with
  | fraction places => exact Nat.div_mul_le_self ..
  | _ => exact Nat.zero_le _

/-- A time of day as far as the form shows it: what is left out is zero. -/
def kept (t : TimeOfDay) (form : TimeForm) : TimeOfDay where
  second := form.keptSecond t
  nano := form.keptNano t
  second_lt := by
    have := t.second_lt
    unfold keptSecond
    split <;> omega
  nano_lt := Nat.lt_of_le_of_lt (form.keptNano_le t) t.nano_lt
  leap_at_minute_end := by
    intro h
    cases form with
    | fraction places => exact t.leap_at_minute_end (Nat.le_trans h (keptNano_le ..))
    | _ => cases h

end TimeForm

section Items

variable {part : Part} {text rest taken : List Char} {n m : Numbers} {items : Layout}

theorem takeDigits?_append (hdigits : ∀ c ∈ taken, c.isDigit = true) (hsome : taken ≠ [])
    (rest : List Char) : takeDigits? taken.length (taken ++ rest) = some (taken, rest) := by
  have htaken : ((taken ++ rest).takeWhile Char.isDigit).take taken.length = taken := by
    rw [List.takeWhile_append_of_pos hdigits, List.take_left]
  simp only [takeDigits?, htaken, List.isEmpty_iff, if_neg hsome, List.drop_left]

theorem Part.width_pos (part : Part) : 0 < part.width := by
  cases part <;> decide

/-- A number that has as many digits as is usual is taken off, whatever comes after it. -/
theorem readNumber?_append (hdigits : ∀ c ∈ taken, c.isDigit = true)
    (hlength : taken.length = part.width) (hset : n.set? part (valueOfDigits taken) = some m)
    (rest : List Char) : readNumber? part (taken ++ rest) n = some (m, rest) := by
  cases taken with
  | nil => exact absurd hlength (Nat.ne_of_lt part.width_pos)
  | cons first others =>
    have hfirst : first.isDigit = true := hdigits first (List.mem_cons_self ..)
    have hblanks : dropBlanks (first :: others ++ rest) = first :: others ++ rest := by
      simp [dropBlanks, isBlank_eq_false_of_isDigit hfirst]
    have htake := takeDigits?_append hdigits (List.cons_ne_nil first others) rest
    unfold readNumber?
    rw [hblanks]
    split
    case h_1 hsign | h_2 hsign =>
      cases hsign
      cases hfirst
    case h_3 =>
      rw [← hlength, htake]
      simp [hset]

theorem readExact?_append (hdigits : ∀ c ∈ taken, c.isDigit = true)
    (hlength : taken.length = part.width) (hset : n.set? part (valueOfDigits taken) = some m)
    (rest : List Char) : readExact? part (taken ++ rest) n = some (m, rest) := by
  have hsome : taken ≠ [] := List.ne_nil_of_length_pos (hlength ▸ part.width_pos)
  simp [readExact?, ← hlength, takeDigits?_append hdigits hsome rest, hset]

end Items

/-- The layout takes that text off the front, whatever is asked for and whatever stands behind it.
-/
def Layout.Takes (layout : Layout) (written : List Char) (n m : Numbers) : Prop :=
  ∀ items rest, Layout.read? (layout ++ items) (written ++ rest) n = Layout.read? items rest m

namespace Layout

variable {layout more items : Layout} {written behind rest : List Char} {n m k : Numbers}

theorem Takes.append (h : layout.Takes written n m) (hmore : more.Takes behind m k) :
    (layout ++ more).Takes (written ++ behind) n k := by
  intro items rest
  rw [List.append_assoc, List.append_assoc, h, hmore]

theorem Takes.marked {options : List Char} {c : Char} (hc : c ∈ options)
    (h : layout.Takes written n m) : Takes (.mark options :: layout) (c :: written) n m := by
  intro items rest
  rw [List.cons_append, List.cons_append, read?]
  simpa [Item.read?, hc] using h items rest

theorem Takes.read?_eq (h : layout.Takes written n m) : layout.read? written n = some m := by
  simpa [read?] using h [] []

/-- A layout that starts with a number, however strict, takes its digits. -/
theorem takes_number (part : Part) {ask : Part → Item} (hask : ask = .number ∨ ask = .exact)
    {value : Nat} (hvalue : value < 10 ^ part.width) (hset : n.set? part value = some m) :
    Takes [ask part] (paddedDigits part.width value) n m := by
  have hdigits : ∀ c ∈ paddedDigits part.width value, c.isDigit = true :=
    fun _ hc => isDigit_of_mem_paddedDigits hc
  have hlength := length_paddedDigits part.width_pos hvalue
  rw [← valueOfDigits_paddedDigits part.width value] at hset
  intro items rest
  rw [List.singleton_append, read?]
  rcases hask with rfl | rfl
  · rw [Item.read?, readNumber?_append hdigits hlength hset, Option.bind_some]
  · rw [Item.read?, readExact?_append hdigits hlength hset, Option.bind_some]

theorem read?_nil_eq_none {item : Item} (hitem : item ≠ .fraction) :
    read? (item :: items) [] n = none := by
  rw [read?, Option.bind_eq_none_iff]
  rintro ⟨next, rest⟩ hread
  exact absurd (Item.eq_fraction_of_read?_nil hread) hitem

theorem read?_mark_eq_none {options : List Char} {c : Char} (hc : c ∉ options) :
    read? (.mark options :: items) (c :: rest) n = none := by
  simp [read?, Item.read?, hc]

theorem read?_mark_paddedDigits {sign : Char} (hsign : sign.isDigit = false) (width value : Nat) :
    read? (.mark [sign] :: items) (paddedDigits width value ++ rest) n = none := by
  obtain ⟨first, others, hfirst⟩ := List.exists_cons_of_ne_nil (paddedDigits_ne_nil width value)
  have hdigit : first.isDigit = true :=
    isDigit_of_mem_paddedDigits (hfirst ▸ List.mem_cons_self ..)
  rw [hfirst]
  refine read?_mark_eq_none fun hmem => ?_
  rw [List.mem_singleton.1 hmem, hsign] at hdigit
  cases hdigit

end Layout

/-- With the numbers of a date. -/
def Numbers.withDate (n : Numbers) (d : Date) : Numbers :=
  { n with year := d.year, month := d.month, day := d.dayOfMonth }

/-- With the numbers of a time of day. -/
def Numbers.withTime (n : Numbers) (t : TimeOfDay) : Numbers :=
  { n with hour := t.hour, minute := t.minute, second := t.secondOfMinute, nano := t.nano }

section Parts

variable {d : Date} {t : TimeOfDay} {n : Numbers} {ask : Part → Item}
  (hask : ask = .number ∨ ask = .exact)

include hask

open Layout (Takes takes_number)

theorem takes_year (hyear : 0 ≤ d.year ∧ d.year ≤ 9999) :
    Takes [ask .year] (paddedDigits 4 d.year.toNat) n { n with year := d.year } := by
  refine takes_number .year hask (show d.year.toNat < 10000 by omega) ?_
  rw [Numbers.set?, Int.toNat_of_nonneg hyear.1]

theorem takes_month :
    Takes [ask .month] (paddedDigits 2 d.month) n { n with month := d.month } := by
  have hbounds := d.month_bounds
  exact takes_number .month hask (show d.month < 100 by omega) (if_pos hbounds)

theorem takes_day :
    Takes [ask .day] (paddedDigits 2 d.dayOfMonth) n { n with day := d.dayOfMonth } := by
  have hbounds := d.dayOfMonth_bounds
  exact takes_number .day hask (show d.dayOfMonth < 100 by omega) (if_pos hbounds)

theorem takes_hour : Takes [ask .hour] (paddedDigits 2 t.hour) n { n with hour := t.hour } := by
  have hlt : t.hour < 24 := by
    have := t.second_lt
    unfold TimeOfDay.hour
    omega
  exact takes_number .hour hask (show t.hour < 100 by omega) (if_pos hlt)

theorem takes_minute :
    Takes [ask .minute] (paddedDigits 2 t.minute) n { n with minute := t.minute } := by
  have hlt : t.minute < 60 := Nat.mod_lt _ (by decide)
  exact takes_number .minute hask (show t.minute < 100 by omega) (if_pos hlt)

theorem takes_second :
    Takes [ask .second] (paddedDigits 2 t.secondOfMinute) n
      { n with second := t.secondOfMinute } := by
  have hlt : t.secondOfMinute < 60 := Nat.mod_lt _ (by decide)
  exact takes_number .second hask (show t.secondOfMinute < 100 by omega)
    (if_pos (by omega))

theorem takes_extendedDate (hyear : 0 ≤ d.year ∧ d.year ≤ 9999) :
    Takes [ask .year, .mark ['-'], ask .month, .mark ['-'], ask .day] (DateForm.extended.text d) n
      (n.withDate d) :=
  ((takes_year hask hyear).append ((takes_month hask).marked (.head _))).append
    ((takes_day hask).marked (.head _))

theorem takes_clock :
    Takes [ask .hour, .mark [':'], ask .minute] (TimeForm.minute.text t) n
      { n with hour := t.hour, minute := t.minute } :=
  (takes_hour hask).append ((takes_minute hask).marked (.head _))

theorem takes_clock_second :
    Takes [ask .hour, .mark [':'], ask .minute, .mark [':'], ask .second]
      (TimeForm.second.text t) n
      { n with hour := t.hour, minute := t.minute, second := t.secondOfMinute } :=
  (takes_clock hask).append ((takes_second hask).marked (.head _))

end Parts

namespace TimeForm

variable {form : TimeForm} {t : TimeOfDay}

theorem hour_kept (t : TimeOfDay) (form : TimeForm) : (form.kept t).hour = t.hour := by
  cases form with
  | minute | basicMinute =>
    change 60 * (t.second / 60) / 3600 = t.second / 3600
    omega
  | _ => rfl

theorem minute_kept (t : TimeOfDay) (form : TimeForm) : (form.kept t).minute = t.minute := by
  cases form with
  | minute | basicMinute =>
    change 60 * (t.second / 60) / 60 % 60 = t.second / 60 % 60
    omega
  | _ => rfl

theorem nano_kept_lt (ht : t.nano < nanosPerSecond) (form : TimeForm) :
    (form.kept t).nano < nanosPerSecond :=
  Nat.lt_of_le_of_lt (form.keptNano_le t) ht

/-- The digits of a fraction are worth the nanoseconds that are kept. -/
theorem nanosOfDigits_leadingDigits {places : Nat} (hplaces : 1 ≤ places ∧ places ≤ 9)
    (ht : t.nano < nanosPerSecond) :
    nanosOfDigits (leadingDigits places t) = ((fraction places).kept t).nano := by
  have hpow : 10 ^ (9 - places) * 10 ^ places = nanosPerSecond := by
    rw [← Nat.pow_add, Nat.sub_add_cancel hplaces.2]
    rfl
  have hvalue : t.nano / 10 ^ (9 - places) < 10 ^ places :=
    Nat.div_lt_of_lt_mul (hpow.symm ▸ ht)
  have hlength : (leadingDigits places t).length = places :=
    length_paddedDigits hplaces.1 hvalue
  have hkept : (leadingDigits places t).take 9 = leadingDigits places t :=
    List.take_of_length_le (by omega)
  simp only [nanosOfDigits, hkept, hlength]
  rw [leadingDigits, valueOfDigits_paddedDigits]
  rfl

end TimeForm

section Fractions

variable {t : TimeOfDay} {n : Numbers} {ask : Part → Item} {items : Layout} {rest : List Char}

theorem read?_no_fraction (hrest : rest = [] ∨ rest = ['Z']) :
    Layout.read? (.fraction :: items) rest n = Layout.read? items rest n := by
  rcases hrest with rfl | rfl <;> rfl

theorem read?_fraction {places : Nat} (hplaces : 1 ≤ places ∧ places ≤ 9)
    (ht : t.nano < nanosPerSecond) (hrest : rest = [] ∨ rest = ['Z']) :
    Layout.read? (.fraction :: items) ('.' :: TimeForm.leadingDigits places t ++ rest) n =
      Layout.read? items rest { n with nano := ((TimeForm.fraction places).kept t).nano } := by
  have hdigits : ∀ c ∈ TimeForm.leadingDigits places t, c.isDigit = true :=
    fun _ hc => isDigit_of_mem_paddedDigits hc
  have hsome : TimeForm.leadingDigits places t ≠ [] := paddedDigits_ne_nil places _
  have htaken : (TimeForm.leadingDigits places t ++ rest).takeWhile Char.isDigit =
      TimeForm.leadingDigits places t := by
    rw [List.takeWhile_append_of_pos hdigits]
    rcases hrest with rfl | rfl <;> simp
  have hleft : (TimeForm.leadingDigits places t ++ rest).dropWhile Char.isDigit = rest := by
    rw [List.dropWhile_append_of_pos hdigits]
    rcases hrest with rfl | rfl <;> simp
  rw [List.cons_append, Layout.read?, Item.read?, readFraction?]
  simp only [htaken, hleft, List.isEmpty_iff, if_neg hsome, Option.bind_some,
    TimeForm.nanosOfDigits_leadingDigits hplaces ht]

/-- With a fraction or without, hour, minute and second are read up to what stands behind them. -/
theorem read?_extendedFraction (hask : ask = .number ∨ ask = .exact) {form : TimeForm}
    (hproper : form.IsProper) (hextended : form.dateForm = .extended) (hsecond : form ≠ .minute)
    (ht : t.nano < nanosPerSecond) (hn : n.nano = 0) (items : Layout)
    (hrest : rest = [] ∨ rest = ['Z']) :
    Layout.read? ([ask .hour, .mark [':'], ask .minute, .mark [':'], ask .second, .fraction] ++
      items) (form.text t ++ rest) n = Layout.read? items rest (n.withTime (form.kept t)) := by
  have htakes := takes_clock_second (t := t) (n := n) hask
  cases form with
  | second =>
    have hread := htakes (.fraction :: items) rest
    rw [read?_no_fraction hrest] at hread
    rw [Numbers.withTime, TimeForm.hour_kept, TimeForm.minute_kept,
      show (TimeForm.kept t .second).nano = n.nano from hn.symm]
    exact hread
  | fraction places =>
    have hread := htakes (.fraction :: items) ('.' :: TimeForm.leadingDigits places t ++ rest)
    rw [read?_fraction hproper ht hrest] at hread
    rw [Numbers.withTime, TimeForm.hour_kept, TimeForm.minute_kept, TimeForm.text,
      List.append_assoc]
    exact hread
  | minute => exact absurd rfl hsecond
  | basicSecond | basicMinute => cases hextended

end Fractions

theorem DateForm.takes {d : Date} (hyear : 0 ≤ d.year ∧ d.year ≤ 9999) (n : Numbers)
    (form : DateForm) : form.layout.Takes (form.text d) n (n.withDate d) := by
  cases form with
  | extended => exact takes_extendedDate (.inl rfl) hyear
  | basic =>
    exact ((takes_year (.inl rfl) hyear).append (takes_month (.inl rfl))).append
      (takes_day (.inl rfl))

section Forms

variable {d : Date} {t : TimeOfDay} {n : Numbers}

theorem takes_basicMinute :
    basicMinute.Takes (TimeForm.basicMinute.text t) n
      { n with hour := t.hour, minute := t.minute } :=
  (takes_hour (.inl rfl)).append (takes_minute (.inl rfl))

/-- The layout of a form reads the form. -/
theorem TimeForm.read?_layout {form : TimeForm} (hproper : form.IsProper)
    (ht : t.nano < nanosPerSecond) (hsecond : n.second = 0) (hnano : n.nano = 0) :
    form.layout.read? (form.text t) n = some (n.withTime (form.kept t)) := by
  have hwhole : 60 * (t.second / 60) % 60 = n.second := by omega
  cases form with
  | second =>
    rw [Numbers.withTime, hour_kept, minute_kept,
      show (TimeForm.kept t .second).nano = n.nano from hnano.symm]
    exact (takes_clock_second (.inl rfl)).read?_eq
  | fraction =>
    have hread := read?_extendedFraction (.inl rfl) hproper rfl nofun ht hnano [] (.inl rfl)
    rw [List.append_nil, List.append_nil] at hread
    exact hread
  | minute =>
    rw [Numbers.withTime, hour_kept, minute_kept,
      show (TimeForm.kept t .minute).secondOfMinute = n.second from hwhole,
      show (TimeForm.kept t .minute).nano = n.nano from hnano.symm]
    exact (takes_clock (.inl rfl)).read?_eq
  | basicSecond =>
    rw [Numbers.withTime, hour_kept, minute_kept,
      show (TimeForm.kept t .basicSecond).nano = n.nano from hnano.symm]
    exact (takes_basicMinute.append (takes_second (.inl rfl))).read?_eq
  | basicMinute =>
    rw [Numbers.withTime, hour_kept, minute_kept,
      show (TimeForm.kept t .basicMinute).secondOfMinute = n.second from hwhole,
      show (TimeForm.kept t .basicMinute).nano = n.nano from hnano.symm]
    exact takes_basicMinute.read?_eq

/-- A layout with a fraction needs none. -/
theorem read?_extendedFraction_second (hnano : n.nano = 0) :
    extendedFraction.read? (TimeForm.second.text t) n =
      some (n.withTime (TimeForm.second.kept t)) := by
  have hread := takes_clock_second (t := t) (n := n) (.inl rfl) [.fraction] []
  rw [read?_no_fraction (.inl rfl), List.append_nil] at hread
  rw [Numbers.withTime, TimeForm.hour_kept, TimeForm.minute_kept,
    show (TimeForm.kept t .second).nano = n.nano from hnano.symm]
  exact hread

/-- A layout stops where the form has nothing left. -/
theorem read?_extendedSecond_minute (items : Layout) :
    Layout.read? (extendedMinute ++ .mark [':'] :: items) (TimeForm.minute.text t) n = none := by
  have hread := takes_clock (t := t) (n := n) (.inl rfl) (.mark [':'] :: items) []
  rw [List.append_nil] at hread
  rw [extendedMinute, hread]
  exact Layout.read?_nil_eq_none (by simp)

/-- A layout stops where it wants a sign and the form has a digit. -/
theorem read?_colon_eq_none (items : Layout) (width value : Nat) (rest : List Char) :
    Layout.read? (.number .hour :: .mark [':'] :: items)
      (paddedDigits 2 t.hour ++ (paddedDigits width value ++ rest)) n = none := by
  have hread := takes_hour (t := t) (n := n) (.inl rfl) (.mark [':'] :: items)
    (paddedDigits width value ++ rest)
  rw [List.singleton_append] at hread
  rw [hread]
  exact Layout.read?_mark_paddedDigits rfl width value

theorem read?_hyphen_eq_none {ask : Part → Item} (hask : ask = .number ∨ ask = .exact)
    (hyear : 0 ≤ d.year ∧ d.year ≤ 9999) (items : Layout) (width value : Nat)
    (rest : List Char) :
    Layout.read? (ask .year :: .mark ['-'] :: items)
      (paddedDigits 4 d.year.toNat ++ (paddedDigits width value ++ rest)) n = none := by
  have hread := takes_year (d := d) (n := n) hask hyear (.mark ['-'] :: items)
    (paddedDigits width value ++ rest)
  rw [List.singleton_append] at hread
  rw [hread]
  exact Layout.read?_mark_paddedDigits rfl width value

theorem read?_basicSecond_minute :
    basicSecond.read? (TimeForm.basicMinute.text t) n = none := by
  have hread := takes_basicMinute (t := t) (n := n) [.number .second] []
  rw [List.append_nil] at hread
  rw [basicSecond, hread]
  exact Layout.read?_nil_eq_none (by simp)

/-- The layout reads the text as these numbers. It has its place among all layouts, and of those
before it none reads the text, apart from the one that also admits a fraction and reads the same. -/
def IsReadAs (layouts : List Layout) (layout : Layout) (text : List Char) (n m : Numbers) : Prop :=
  layout.read? text n = some m ∧ ∃ before after, layouts = before ++ layout :: after ∧
    ∀ earlier ∈ before, earlier.read? text n = none ∨
      (earlier = layout ++ [.fraction] ∧ earlier.read? text n = some m)

theorem TimeForm.isReadAs {form : TimeForm} (hproper : form.IsProper)
    (ht : t.nano < nanosPerSecond) (hsecond : n.second = 0) (hnano : n.nano = 0) :
    IsReadAs timeLayouts form.layout (form.text t) n (n.withTime (form.kept t)) := by
  refine ⟨form.read?_layout hproper ht hsecond hnano, ?_⟩
  cases form with
  | second =>
    refine ⟨[extendedFraction], _, rfl, List.forall_mem_singleton.2 (.inr ⟨rfl, ?_⟩)⟩
    exact read?_extendedFraction_second hnano
  | fraction => exact ⟨[], _, rfl, nofun⟩
  | minute =>
    refine ⟨[extendedFraction, extendedSecond], _, rfl, ?_⟩
    rw [List.forall_mem_cons, List.forall_mem_singleton]
    exact ⟨.inl (read?_extendedSecond_minute _), .inl (read?_extendedSecond_minute _)⟩
  | basicSecond =>
    refine ⟨[extendedFraction, extendedSecond, extendedMinute], _, rfl, ?_⟩
    have hcolon (items : Layout) :=
      read?_colon_eq_none (t := t) (n := n) items 2 t.minute (paddedDigits 2 t.secondOfMinute)
    simp only [List.forall_mem_cons, List.not_mem_nil, false_imp_iff, implies_true, and_true,
      TimeForm.text, List.append_assoc]
    exact ⟨.inl (hcolon _), .inl (hcolon _), .inl (hcolon _)⟩
  | basicMinute =>
    refine ⟨[extendedFraction, extendedSecond, extendedMinute, Literal.basicSecond], _, rfl, ?_⟩
    have hcolon (items : Layout) :=
      read?_colon_eq_none (t := t) (n := n) items 2 t.minute []
    simp only [List.append_nil] at hcolon
    simp only [List.forall_mem_cons, List.not_mem_nil, false_imp_iff, implies_true, and_true]
    exact ⟨.inl (hcolon _), .inl (hcolon _), .inl (hcolon _), .inl read?_basicSecond_minute⟩

/-- A time behind a date, with the layout of each. -/
theorem takes_date_mark (hyear : 0 ≤ d.year ∧ d.year ≤ 9999) (form : DateForm) (layout : Layout)
    (text : List Char) :
    Layout.read? (form.layout ++ .mark ['T'] :: layout) (form.text d ++ 'T' :: text) n =
      layout.read? text (n.withDate d) := by
  rw [form.takes hyear n, Layout.read?]
  rfl

theorem DateForm.isReadAs (hyear : 0 ≤ d.year ∧ d.year ≤ 9999) (n : Numbers) (form : DateForm) :
    IsReadAs dateLayouts form.layout (form.text d) n (n.withDate d) := by
  refine ⟨(form.takes hyear n).read?_eq, ?_⟩
  cases form with
  | extended => exact ⟨[], _, rfl, nofun⟩
  | basic =>
    refine ⟨[extendedDate], _, rfl, List.forall_mem_singleton.2 (.inl ?_)⟩
    rw [text, List.append_assoc]
    exact read?_hyphen_eq_none (.inl rfl) hyear _ 2 _ _

/-- A date without hyphens is not read by a layout with hyphens, whatever comes behind it. -/
theorem read?_extendedDate_basic {ask : Part → Item} (hask : ask = .number ∨ ask = .exact)
    (hyear : 0 ≤ d.year ∧ d.year ≤ 9999) (items : Layout) (rest : List Char) :
    Layout.read? (ask .year :: .mark ['-'] :: items) (DateForm.basic.text d ++ rest) n = none := by
  rw [DateForm.text, List.append_assoc, List.append_assoc]
  exact read?_hyphen_eq_none hask hyear items 2 _ _

theorem TimeForm.isReadAs_dateTime {form : TimeForm} (hproper : form.IsProper)
    (hyear : 0 ≤ d.year ∧ d.year ≤ 9999) (ht : t.nano < nanosPerSecond) (hsecond : n.second = 0)
    (hnano : n.nano = 0) :
    IsReadAs dateTimeLayouts (form.dateForm.layout ++ .mark ['T'] :: form.layout)
      (form.dateForm.text d ++ 'T' :: form.text t) n ((n.withDate d).withTime (form.kept t)) := by
  refine ⟨(takes_date_mark hyear ..).trans (form.read?_layout hproper ht hsecond hnano), ?_⟩
  have hhyphen (items : Layout) (rest : List Char) :=
    read?_extendedDate_basic (n := n) (.inl rfl) hyear items rest
  cases form with
  | second =>
    refine ⟨[extendedDate ++ .mark ['T'] :: extendedFraction], _, rfl,
      List.forall_mem_singleton.2 (.inr ⟨rfl, ?_⟩)⟩
    exact (takes_date_mark hyear .extended _ _).trans (read?_extendedFraction_second hnano)
  | fraction => exact ⟨[], _, rfl, nofun⟩
  | minute =>
    refine ⟨[extendedDate ++ .mark ['T'] :: extendedFraction,
      extendedDate ++ .mark ['T'] :: extendedSecond], _, rfl, ?_⟩
    have hminute (items : Layout) := (takes_date_mark (n := n) hyear .extended _ _).trans
      (read?_extendedSecond_minute (t := t) (.number .second :: items))
    rw [List.forall_mem_cons, List.forall_mem_singleton]
    exact ⟨.inl (hminute _), .inl (hminute _)⟩
  | basicSecond =>
    refine ⟨[extendedDate ++ .mark ['T'] :: extendedFraction,
      extendedDate ++ .mark ['T'] :: extendedSecond,
      extendedDate ++ .mark ['T'] :: extendedMinute], _, rfl, ?_⟩
    simp only [List.forall_mem_cons, List.not_mem_nil, false_imp_iff, implies_true, and_true]
    exact ⟨.inl (hhyphen _ _), .inl (hhyphen _ _), .inl (hhyphen _ _)⟩
  | basicMinute =>
    refine ⟨[extendedDate ++ .mark ['T'] :: extendedFraction,
      extendedDate ++ .mark ['T'] :: extendedSecond,
      extendedDate ++ .mark ['T'] :: extendedMinute,
      basicDate ++ .mark ['T'] :: Literal.basicSecond], _, rfl, ?_⟩
    simp only [List.forall_mem_cons, List.not_mem_nil, false_imp_iff, implies_true, and_true]
    exact ⟨.inl (hhyphen _ _), .inl (hhyphen _ _), .inl (hhyphen _ _),
      .inl ((takes_date_mark hyear .basic _ _).trans read?_basicSecond_minute)⟩

/-- The strict layout wants an offset. If it reads one of the forms it reads what is written. -/
theorem read?_offsetDateTime (hyear : 0 ≤ d.year ∧ d.year ≤ 9999) (ht : t.nano < nanosPerSecond)
    (hnano : n.nano = 0) {form : TimeForm} (hproper : form.IsProper) {zulu : List Char}
    (hzulu : zulu = [] ∨ zulu = ['Z']) :
    offsetDateTime.read? (form.dateForm.text d ++ 'T' :: (form.text t ++ zulu)) n = none ∨
    offsetDateTime.read? (form.dateForm.text d ++ 'T' :: (form.text t ++ zulu)) n =
      some ((n.withDate d).withTime (form.kept t)) := by
  have hdate (items : Layout) (rest : List Char) :
      Layout.read? ([.exact .year, .mark ['-'], .exact .month, .mark ['-'], .exact .day] ++
        .mark ['T', 't', ' '] :: items) (DateForm.extended.text d ++ 'T' :: rest) n =
      Layout.read? items rest (n.withDate d) := by
    rw [takes_extendedDate (.inr rfl) hyear, Layout.read?]
    rfl
  cases form with
  | second | fraction =>
    have hread := read?_extendedFraction (t := t) (n := n.withDate d) (.inr rfl) hproper rfl
      (by simp) ht hnano [.offset] hzulu
    rw [← hdate] at hread
    rcases hzulu with rfl | rfl
    · exact .inl (hread.trans (Layout.read?_nil_eq_none (by simp)))
    · exact .inr hread
  | minute =>
    have hread := takes_clock (t := t) (n := n.withDate d) (.inr rfl)
      [.mark [':'], .exact .second, .fraction, .offset] zulu
    rw [← hdate] at hread
    rcases hzulu with rfl | rfl
    · exact .inl (hread.trans (Layout.read?_nil_eq_none (by simp)))
    · exact .inl (hread.trans (Layout.read?_mark_eq_none (by decide)))
  | basicSecond | basicMinute => exact .inl (read?_extendedDate_basic (.inr rfl) hyear _ _)

end Forms

/-- All layouts that read the text read the same, and so it does not matter which comes first. -/
theorem IsReadAs.firstReading?_eq {layouts : List Layout} {layout : Layout} {text : List Char}
    {m : Numbers} (h : IsReadAs layouts layout text {} m) {α : Type} {make? : Numbers → Option α}
    {a : α} (hmake : make? m = some a) : firstReading? layouts make? text = some a := by
  obtain ⟨hread, before, after, rfl, hbefore⟩ := h
  unfold firstReading?
  induction before with
  | nil => rw [List.nil_append, List.findSome?_cons, hread, Option.bind_some, hmake]
  | cons earlier rest ih =>
    rw [List.forall_mem_cons] at hbefore
    rw [List.cons_append, List.findSome?_cons]
    rcases hbefore.1 with hnone | ⟨-, hsame⟩
    · rw [hnone, Option.bind_none]
      exact ih hbefore.2
    · rw [hsame, Option.bind_some, hmake]

theorem Numbers.date?_withDate (n : Numbers) (d : Date) : (n.withDate d).date? = some d :=
  d.ofNumbers?_eq_self

theorem Numbers.timeOfDay?_withTime {t : TimeOfDay} (ht : t.nano < nanosPerSecond) (n : Numbers) :
    (n.withTime t).timeOfDay? = some t :=
  TimeOfDay.ofNumbers?_eq_self ht

theorem Numbers.instant?_withTime {n : Numbers} {t : TimeOfDay} (ht : t.nano < nanosPerSecond)
    (d : Date) (hoffset : n.offset = 0) :
    ((n.withDate d).withTime t).instant? = some (Instant.on d t) := by
  have hdate : ((n.withDate d).withTime t).date? = some d := d.ofNumbers?_eq_self
  rw [instant?, hdate, timeOfDay?_withTime ht]
  change (Instant.on d t).addMinutes? (-n.offset) = _
  rw [hoffset, Int.neg_zero, Instant.addMinutes?_zero]

section Zulu

variable {text zulu : List Char}

theorem stripZulu_append (htext : 'Z' ∉ text) (hzulu : zulu = [] ∨ zulu = ['Z']) :
    stripZulu (text ++ zulu) = text := by
  rcases hzulu with rfl | rfl
  · rw [List.append_nil, stripZulu_eq_self htext]
  · simp [stripZulu]

theorem zulu_not_mem_paddedDigits (width value : Nat) : 'Z' ∉ paddedDigits width value :=
  fun h => absurd (isDigit_of_mem_paddedDigits h) (by decide)

theorem DateForm.zulu_not_mem_text (d : Date) (form : DateForm) : 'Z' ∉ form.text d := by
  cases form <;> simp [text, zulu_not_mem_paddedDigits]

theorem TimeForm.zulu_not_mem_text (t : TimeOfDay) (form : TimeForm) : 'Z' ∉ form.text t := by
  cases form <;> simp [text, leadingDigits, zulu_not_mem_paddedDigits]

end Zulu

section Readings

variable {d : Date} {t : TimeOfDay} {zulu : List Char}

theorem DateForm.read_text (hyear : 0 ≤ d.year ∧ d.year ≤ 9999) (form : DateForm) :
    read .date (form.text d) = .ok (.date d) := by
  rw [read, readDate, (form.isReadAs hyear {}).firstReading?_eq (Numbers.date?_withDate ..)]
  rfl

namespace TimeForm

variable {form : TimeForm}

theorem read_text (hproper : form.IsProper) (ht : t.nano < nanosPerSecond)
    (hzulu : zulu = [] ∨ zulu = ['Z']) :
    read .time (form.text t ++ zulu) = .ok (.time (form.kept t)) := by
  rw [read, readTime, stripZulu_append (form.zulu_not_mem_text t) hzulu,
    (isReadAs hproper ht rfl rfl).firstReading?_eq
      (Numbers.timeOfDay?_withTime (form.nano_kept_lt ht) _)]
  rfl

/-- An instant is read as written, be it by the strict layout or by that of its form. -/
theorem read_dateTime_text (hproper : form.IsProper) (hyear : 0 ≤ d.year ∧ d.year ≤ 9999)
    (ht : t.nano < nanosPerSecond) (hzulu : zulu = [] ∨ zulu = ['Z']) :
    read .dateTime (form.dateForm.text d ++ 'T' :: (form.text t ++ zulu)) =
      .ok (.dateTime (Instant.on d (form.kept t))) := by
  have hinstant := Numbers.instant?_withTime (n := {}) (form.nano_kept_lt ht) d rfl
  have hmark : 'Z' ∉ form.dateForm.text d ++ 'T' :: form.text t := by
    simp [DateForm.zulu_not_mem_text, TimeForm.zulu_not_mem_text]
  have hstrip := stripZulu_append hmark hzulu
  rw [List.append_assoc, List.cons_append] at hstrip
  rw [read, readDateTime, hstrip,
    (isReadAs_dateTime hproper hyear ht rfl rfl).firstReading?_eq hinstant]
  rcases read?_offsetDateTime hyear ht (n := {}) rfl hproper hzulu with hnone | hsome
  · simp only [firstReading?, List.findSome?_cons, hnone, Option.bind_none, List.findSome?_nil]
    rfl
  · simp only [firstReading?, List.findSome?_cons, hsome, Option.bind_some, hinstant]
    rfl

end TimeForm

end Readings

/-- Dates, times of day and instants are read as what is written in each of their forms, with or
without a mark for universal time behind a time. The layout of the form reads it, and no layout
before that takes it for something else. -/
theorem forms_read_as_written {d : Date} (hyear : 0 ≤ d.year ∧ d.year ≤ 9999) {t : TimeOfDay}
    (ht : t.nano < nanosPerSecond) {zulu : List Char} (hzulu : zulu = [] ∨ zulu = ['Z']) :
    (∀ form : DateForm,
      IsReadAs dateLayouts form.layout (form.text d) {} (({} : Numbers).withDate d) ∧
      read .date (form.text d) = .ok (.date d)) ∧
    ∀ form : TimeForm, form.IsProper →
      (IsReadAs timeLayouts form.layout (form.text t) {}
          (({} : Numbers).withTime (form.kept t)) ∧
        read .time (form.text t ++ zulu) = .ok (.time (form.kept t))) ∧
      IsReadAs dateTimeLayouts (form.dateForm.layout ++ .mark ['T'] :: form.layout)
          (form.dateForm.text d ++ 'T' :: form.text t) {}
          ((({} : Numbers).withDate d).withTime (form.kept t)) ∧
        read .dateTime (form.dateForm.text d ++ 'T' :: (form.text t ++ zulu)) =
          .ok (.dateTime (Instant.on d (form.kept t))) := by
  refine ⟨fun form => ?_, fun form hproper => ⟨?_, ?_⟩⟩
  · exact ⟨form.isReadAs hyear {}, form.read_text hyear⟩
  · exact ⟨TimeForm.isReadAs hproper ht rfl rfl, TimeForm.read_text hproper ht hzulu⟩
  · exact ⟨TimeForm.isReadAs_dateTime hproper hyear ht rfl rfl,
      TimeForm.read_dateTime_text hproper hyear ht hzulu⟩

/-- A date without hyphens, a fraction of one digit, and an instant up to the minute. -/
theorem forms_read_as_written_half_past_ten :
    read .date "20250102".toList = .ok (.date ⟨20090, by decide, by decide⟩) ∧
    read .time "10:30:15.2Z".toList =
      .ok (.time ⟨37815, 200000000, by decide, by decide, by decide⟩) ∧
    read .dateTime "20250102T1030Z".toList =
      .ok (.dateTime (Instant.on ⟨20090, by decide, by decide⟩
        ⟨37800, 0, by decide, by decide, by decide⟩)) := by
  let d : Date := ⟨20090, by decide, by decide⟩
  let t : TimeOfDay := ⟨37815, 250000000, by decide, by decide, by decide⟩
  have hzulu : ['Z'] = [] ∨ ['Z'] = ['Z'] := .inr rfl
  have hdateText : DateForm.basic.text d = "20250102".toList := by decide +kernel
  have htimeText : (TimeForm.fraction 1).text t ++ ['Z'] = "10:30:15.2Z".toList := by
    decide +kernel
  have hinstantText : TimeForm.basicMinute.dateForm.text d ++ 'T' ::
      (TimeForm.basicMinute.text t ++ ['Z']) = "20250102T1030Z".toList := by decide +kernel
  obtain ⟨hdates, htimes⟩ :=
    forms_read_as_written (d := d) (by decide) (t := t) (by decide) hzulu
  have hdate := (hdates .basic).2
  have htime := (htimes (.fraction 1) ⟨by decide, by decide⟩).1.2
  have hinstant := (htimes .basicMinute trivial).2.2
  rw [hdateText] at hdate
  rw [htimeText, show (TimeForm.fraction 1).kept t =
    ⟨37815, 200000000, by decide, by decide, by decide⟩ by decide] at htime
  rw [hinstantText, show TimeForm.basicMinute.kept t =
    ⟨37800, 0, by decide, by decide, by decide⟩ by decide] at hinstant
  exact ⟨hdate, htime, hinstant⟩

end Almanac.Literal

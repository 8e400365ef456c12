import Almanac.Proofs.Reduction.Argument
import Almanac.Proofs.Reduction.Entry
import Almanac.Proofs.Reduction.Literal
import Almanac.Proofs.Schema.Build

/-!
Lists as arguments: the items with semicolons between them are one token, which is taken apart into
the same items. Days of the week and filters are written with such lists.
-/

namespace Almanac

open Calendar Expression

/-- The text is an item of a list, and a list by itself. -/
structure IsItem (item : String) : Prop where
  isBareToken : IsBareToken item.toList
  ne_nil : item.toList ≠ []
  itemsOf_ofToken : itemsOf (.ofToken item.toList) = .ok [item]

theorem IsItem.integer {n : Int} (h : Text.IsWord64 n) : IsItem (Text.integer n) where
  isBareToken :=
    { isSolid := fun _ hc => isBlank_eq_false_of_mem_integer hc
      isRun := fun _ hc => isDelimiter_eq_false_of_mem_integer hc
      isSingle := fun hc => by
        rcases Text.eq_minus_or_isDigit_of_mem_integer hc with hc | hc <;> cases hc }
  ne_nil := Text.integer_toList_ne_nil n
  itemsOf_ofToken := by
    rw [ofToken_integer h]
    rfl

theorem IsItem.weekday (day : Weekday) : IsItem day.name where
  isBareToken := by cases day <;> decide
  ne_nil := by cases day <;> decide
  itemsOf_ofToken := by cases day <;> rfl

section Items

variable {items : List String} (hsome : items ≠ []) (hitems : ∀ item ∈ items, IsItem item)

include hsome hitems

/-- Neither blanks nor delimiters come in between the items. -/
theorem spells_items :
    Spells (";".intercalate items).toList (.value (.ofToken (";".intercalate items).toList)) := by
  have hchars {p : Char → Bool} (hsign : p ';' = false)
      (hp : ∀ item ∈ items, ∀ c ∈ item.toList, p c = false) :
      ∀ c ∈ (";".intercalate items).toList, p c = false := by
    intro c hc
    rw [String.toList_intercalate] at hc
    rcases Text.eq_or_exists_mem_of_mem_intercalate hc with rfl | ⟨piece, hpiece, hc⟩
    · exact hsign
    · obtain ⟨item, hitem, rfl⟩ := List.mem_map.1 hpiece
      exact hp item hitem c hc
  refine spells_token ?_ (hchars rfl fun item hitem => (hitems item hitem).isBareToken.isSolid)
    (hchars rfl fun item hitem => (hitems item hitem).isBareToken.isRun)
  cases items with
  | nil => exact absurd rfl hsome
  | cons first rest =>
    have hfirst := (hitems first (List.mem_cons_self ..)).ne_nil
    cases rest <;> simp [hfirst]

theorem itemsOf_items : itemsOf (.ofToken (";".intercalate items).toList) = .ok items := by
  cases items with
  | nil => exact absurd rfl hsome
  | cons first rest =>
    cases rest with
    | nil =>
      rw [List.forall_mem_singleton] at hitems
      simpa using hitems.itemsOf_ofToken
    | cons second others =>
      have hmem : ';' ∈ (";".intercalate (first :: second :: others)).toList := by simp
      unfold Value.ofToken
      rw [if_pos hmem, String.toList_intercalate]
      change Except.ok ((Text.split ';' ([';'].intercalate _)).map _) = _
      rw [Text.split_intercalate (by simp)]
      · rw [List.map_map]
        refine congrArg Except.ok ((List.map_congr_left fun item hitem => ?_).trans (List.map_id _))
        rw [Function.comp_apply, Text.trim_eq_self (hitems item hitem).isBareToken.isSolid,
          String.ofList_toList, id]
      · intro piece hpiece
        obtain ⟨item, hitem, rfl⟩ := List.mem_map.1 hpiece
        exact (hitems item hitem).isBareToken.isSingle

end Items

/-- An argument that is a list: its name, its items and what they are taken for. -/
structure Listing where
  key : String
  items : List String
  checked : FieldValue

namespace Listing

def ofNumbers (key : String) (numbers : SortedSet Nat) : Listing where
  key := key
  items := numbers.toList.map Text.natural
  checked := .integers (numbers.toList.map Nat.cast)

def ofWeekdays (key : String) (days : SortedSet Weekday) : Listing where
  key := key
  items := days.toList.map Weekday.name
  checked := .texts (days.toList.map Weekday.name)

def entry (l : Listing) : Entry where
  key := l.key
  text := ";".intercalate l.items
  value := .ofToken (";".intercalate l.items).toList
  checked := l.checked

variable {schema : Schema} {key : String} {required : Bool}

/-- Numbers of few digits are a list for every field that has them within its bounds. -/
theorem accepts_ofNumbers {numbers : SortedSet Nat} {lower upper : Int} (hname : IsName key.toList)
    (hfield : ⟨key, .integersWithin (.within lower upper), required⟩ ∈ schema.fields)
    (hword : ∀ n ∈ numbers, Text.IsWord64 n) (hbounds : ∀ n ∈ numbers, lower ≤ n ∧ n ≤ upper)
    (hsome : (ofNumbers key numbers).items ≠ []) :
    schema.Accepts (ofNumbers key numbers).entry := by
  have hitems : ∀ item ∈ (ofNumbers key numbers).items, IsItem item := by
    refine List.forall_mem_map.2 fun n hn => ?_
    rw [← Text.integer_natCast]
    exact IsItem.integer (hword n hn)
  refine ⟨hname, spells_items hsome hitems, _, hfield, rfl, fun ctx _ => ?_⟩
  have hcheck : checkList (fun item => (integerOf (.text item)).bind
      (checkBounds (.within lower upper))) (numbers.toList.map Text.natural) =
        .ok (numbers.toList.map Nat.cast) := by
    refine checkList_map fun n hn => ?_
    have hread : integerOf (.text (Text.natural n)) = .ok (n : Int) := by
      rw [← Text.integer_natCast, integerOf, Text.readWord64?_integer (hword n hn)]
    rw [hread]
    exact if_pos (Bounds.contains_within_iff.2 (hbounds n hn))
  change Reduction.ofExcept (((itemsOf _).bind _).map _) = _
  rw [entry, itemsOf_items hsome hitems]
  exact congrArg (fun result => Reduction.ofExcept (result.map FieldValue.integers)) hcheck

theorem accepts_ofWeekdays {days : SortedSet Weekday} (hname : IsName key.toList)
    (hfield : ⟨key, .choices Weekday.names, required⟩ ∈ schema.fields)
    (hsome : (ofWeekdays key days).items ≠ []) : schema.Accepts (ofWeekdays key days).entry := by
  have hitems : ∀ item ∈ (ofWeekdays key days).items, IsItem item :=
    List.forall_mem_map.2 fun day _ => .weekday day
  refine ⟨hname, spells_items hsome hitems, _, hfield, rfl, fun ctx _ => ?_⟩
  change Reduction.ofExcept (((itemsOf _).bind _).map _) = _
  rw [entry, itemsOf_items hsome hitems]
  exact congrArg (fun result => Reduction.ofExcept (result.map FieldValue.texts))
    (checkList_weekdayNames _)

/-- What the field of that name has: nothing if there are no items to write. -/
def value? (l : Listing) : Option FieldValue :=
  if l.items = [] then none else some l.checked

theorem ofList_counts {f : Fields} {numbers : SortedSet Nat}
    (hword : ∀ n ∈ numbers, n < Text.word32) (h : f.get? key = (ofNumbers key numbers).value?) :
    SortedSet.ofList (f.counts key) = numbers := by
  have hcounts : f.counts key = numbers.toList := by
    rw [Fields.counts, h]
    by_cases hsome : numbers.toList = []
    · simp [value?, ofNumbers, hsome]
    · have hvalue : (ofNumbers key numbers).value? =
          some (.integers (numbers.toList.map Nat.cast)) := by
        simp [value?, ofNumbers, hsome]
      rw [hvalue, Option.map_some, Option.getD_some, FieldValue.counts_integers hword]
  rw [hcounts, SortedSet.ofList_toList]

theorem weekdaysOf_texts {f : Fields} {days : SortedSet Weekday}
    (h : f.get? key = (ofWeekdays key days).value?) :
    Schema.weekdaysOf ((f.view? FieldValue.texts? key).getD []) = days := by
  have hnames : (f.view? FieldValue.texts? key).getD [] = days.toList.map Weekday.name := by
    rw [Fields.view?, h]
    by_cases hsome : days.toList = []
    · simp [value?, ofWeekdays, hsome]
    · simp [value?, ofWeekdays, hsome, FieldValue.texts?]
  rw [hnames, Schema.weekdaysOf_names, SortedSet.ofList_toList]

end Listing

section Call

variable {days : SortedSet Weekday} {f : Filter}

/-- Days of the week, unless there are none. -/
theorem isCalledBy_weekdays (hsome : days.isEmpty = false) :
    (Section.weekdays days).IsCalledBy (Section.weekdays days).text := by
  have hitems : (Listing.ofWeekdays "name" days).items ≠ [] := by
    simpa [Listing.ofWeekdays, SortedSet.isEmpty] using hsome
  have hfield : .must "name" (.choices Weekday.names) ∈ Schema.weekdays.fields := by
    simp [Schema.weekdays]
  have haccepts : Schema.weekdays.Accepts (Listing.ofWeekdays "name" days).entry :=
    Listing.accepts_ofWeekdays (by decide) hfield hitems
  have htext : (Section.weekdays days).text =
      callText "day_name" ([(Listing.ofWeekdays "name" days).entry].map Entry.written) := by
    rw [Entry.callText_singleton]
    rfl
  rw [htext]
  refine isCalledBy_of_filled (by decide) rfl (by decide) rfl (List.forall_mem_singleton.2 haccepts)
    fun fields hfilled => Schema.build_weekdays hsome ?_
  exact hfilled (Listing.ofWeekdays "name" days).entry (List.mem_singleton_self _)

end Call

namespace Filter

/-- The fields of a filter, also those without values. -/
def listings (f : Filter) : List Listing :=
  [.ofNumbers "minutes" f.minutes, .ofNumbers "hours" f.hours, .ofNumbers "days" f.days,
    .ofNumbers "weeks" f.weeks, .ofNumbers "months" f.months, .ofWeekdays "day_names" f.weekdays,
    .ofNumbers "day_numbers" f.yearDays]

/-- The fields that are written. -/
def entries (f : Filter) : List Entry :=
  (f.listings.filter fun l => !l.items.isEmpty).map Listing.entry

variable {f : Filter} {l : Listing}

theorem callText_eq_callText (f : Filter) :
    f.callText = Expression.callText "filter" (f.entries.map Entry.written) := by
  have hfields : f.fieldTexts =
      (f.listings.filter fun l => !l.items.isEmpty).map fun l => (l.key, l.items) := by
    change List.filter _ (f.listings.map fun l => (l.key, l.items)) = _
    rw [List.filter_map]
    rfl
  rw [callText, hfields, entries, List.map_map, List.map_map]
  rfl

theorem nodup_listings (f : Filter) : (f.listings.map Listing.key).Nodup := by
  change ["minutes", "hours", "days", "weeks", "months", "day_names", "day_numbers"].Nodup
  decide

theorem nodup_entries (f : Filter) : (f.entries.map Entry.key).Nodup := by
  have hsublist := (List.filter_sublist (p := fun l : Listing => !l.items.isEmpty)
    (l := f.listings)).map Listing.key
  rw [entries, List.map_map]
  exact hsublist.nodup f.nodup_listings

/-- A field without values is not written under its name, and no other field is. -/
theorem get?_eq_value? {fields : Fields}
    (hfilled : ∀ e ∈ f.entries, fields.get? e.key = some e.checked)
    (hleft : ∀ key ∉ f.entries.map Entry.key, fields.get? key = none) (hl : l ∈ f.listings) :
    fields.get? l.key = l.value? := by
  unfold Listing.value?
  split
  case isTrue hnone =>
    refine hleft l.key fun hmem => ?_
    rw [entries, List.map_map] at hmem
    obtain ⟨other, hother, hkey⟩ := List.mem_map.1 hmem
    obtain ⟨hother, hsome⟩ := List.mem_filter.1 hother
    rw [List.inj_on_of_nodup_map f.nodup_listings hother hl hkey, hnone] at hsome
    cases hsome
  case isFalse hsome =>
    refine hfilled l.entry (List.mem_map_of_mem (List.mem_filter.2 ⟨hl, ?_⟩))
    simpa using hsome

theorem IsWithinBounds.build_filter {fields : Fields} (hf : f.IsWithinBounds)
    (h : ∀ l ∈ f.listings, fields.get? l.key = l.value?) :
    Schema.filter.build fields = .ok (.filter f) := by
  have hnumbers {key : String} {numbers : SortedSet Nat} (hl : .ofNumbers key numbers ∈ f.listings)
      (hle : ∀ n ∈ numbers, n ≤ 366) : SortedSet.ofList (fields.counts key) = numbers :=
    Listing.ofList_counts (fun n hn => (hle n hn).trans_lt (by decide)) (h _ hl)
  have hminutes : SortedSet.ofList (fields.counts "minutes") = f.minutes :=
    hnumbers (by simp [listings]) fun n hn => (hf.minute_le n hn).trans (by decide)
  have hhours : SortedSet.ofList (fields.counts "hours") = f.hours :=
    hnumbers (by simp [listings]) fun n hn => (hf.hour_le n hn).trans (by decide)
  have hdays : SortedSet.ofList (fields.counts "days") = f.days :=
    hnumbers (by simp [listings]) fun n hn => (hf.day_bounds n hn).2.trans (by decide)
  have hweeks : SortedSet.ofList (fields.counts "weeks") = f.weeks :=
    hnumbers (by simp [listings]) fun n hn => (hf.week_bounds n hn).2.trans (by decide)
  have hmonths : SortedSet.ofList (fields.counts "months") = f.months :=
    hnumbers (by simp [listings]) fun n hn => (hf.month_bounds n hn).2.trans (by decide)
  have hyearDays : SortedSet.ofList (fields.counts "day_numbers") = f.yearDays :=
    hnumbers (by simp [listings]) fun n hn => (hf.yearDay_bounds n hn).2
  have hweekdays :
      Schema.weekdaysOf ((fields.view? FieldValue.texts? "day_names").getD []) = f.weekdays :=
    Listing.weekdaysOf_texts (h (.ofWeekdays "day_names" f.weekdays) (by simp [listings]))
  simp only [Schema.filter, hminutes, hhours, hdays, hweeks, hmonths, hweekdays, hyearDays]

/-- The numbers of a field that are bounded as its schema has it make an argument. -/
theorem accepts_ofNumbers {key : String} {numbers : SortedSet Nat} {lower upper : Nat}
    (hname : IsName key.toList)
    (hfield : .may key (.integersWithin (.within lower upper)) ∈ Schema.filter.fields)
    (hbounds : ∀ n ∈ numbers, lower ≤ n ∧ n ≤ upper) (hupper : upper ≤ 366)
    (hsome : (Listing.ofNumbers key numbers).items ≠ []) :
    Schema.filter.Accepts (Listing.ofNumbers key numbers).entry := by
  refine Listing.accepts_ofNumbers hname hfield (fun n hn => ?_) (fun n hn => ?_) hsome
  · have := hbounds n hn
    unfold Text.IsWord64
    omega
  · have := hbounds n hn
    omega

theorem IsWithinBounds.accepts (hf : f.IsWithinBounds) :
    ∀ e ∈ f.entries, Schema.filter.Accepts e := by
  intro e he
  obtain ⟨l, hl, rfl⟩ := List.mem_map.1 he
  obtain ⟨hl, hsome⟩ := List.mem_filter.1 hl
  replace hsome : l.items ≠ [] := by simpa using hsome
  simp only [listings, List.mem_cons, List.not_mem_nil, or_false] at hl
  rcases hl with rfl | rfl | rfl | rfl | rfl | rfl | rfl
  · exact accepts_ofNumbers (by decide) (by simp [Schema.filter])
      (fun n hn => ⟨n.zero_le, hf.minute_le n hn⟩) (by decide) hsome
  · exact accepts_ofNumbers (by decide) (by simp [Schema.filter])
      (fun n hn => ⟨n.zero_le, hf.hour_le n hn⟩) (by decide) hsome
  · exact accepts_ofNumbers (by decide) (by simp [Schema.filter]) hf.day_bounds (by decide) hsome
  · exact accepts_ofNumbers (by decide) (by simp [Schema.filter]) hf.week_bounds (by decide) hsome
  · exact accepts_ofNumbers (by decide) (by simp [Schema.filter]) hf.month_bounds (by decide) hsome
  · have hfield : .may "day_names" (.choices Weekday.names) ∈ Schema.filter.fields := by
      simp [Schema.filter]
    exact Listing.accepts_ofWeekdays (by decide) hfield hsome
  · exact accepts_ofNumbers (by decide) (by simp [Schema.filter]) hf.yearDay_bounds (by decide)
      hsome

end Filter

theorem isCalledBy_filter {f : Filter} (hf : f.IsWithinBounds) :
    (Section.filter f).IsCalledBy f.callText := by
  rw [f.callText_eq_callText]
  refine isCalledBy_of_accepts (by decide) rfl (by decide) hf.accepts f.nodup_entries ?_
    fun fields hfilled hleft => hf.build_filter fun l hl => Filter.get?_eq_value? hfilled hleft hl
  simp [Schema.filter, Field.may]

end Almanac

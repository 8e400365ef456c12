import Mathlib.Data.List.Nodup
import Almanac.Proofs.Calendar.Numbers
import Almanac.Proofs.Outcome
import Almanac.Proofs.Section.WellFormed
import Almanac.Schema.Default

/-!
What the schemas make of checked fields. The checks of a schema are all that its section needs to
be well-formed: no number is out of bounds and no list of intervals is empty.
-/

namespace Almanac

open Calendar Period Occurrence

/-- A field of that kind may have the value. A section among the values is well-formed. -/
def FieldKind.Admits : FieldKind → FieldValue → Prop
  | .integer, .integer _ => True
  | .integerWithin bounds, .integer n => bounds.contains n = true
  | .number, .number _ => True
  | .text, .text _ => True
  | .choice options, .text s => s ∈ options
  | .integersWithin bounds, .integers items => ∀ n ∈ items, bounds.contains n = true
  | .choices options, .texts items => ∀ s ∈ items, s ∈ options
  | .subsection kinds, .subsection s => s.kind ∈ kinds ∧ s.IsWellFormed
  | .bound _, .bound _ => True
  | _, _ => False

theorem Bounds.contains_within_iff {lower upper n : Int} :
    (Bounds.within lower upper).contains n = true ↔ lower ≤ n ∧ n ≤ upper := by
  change (decide (lower ≤ n) && decide (n ≤ upper)) = true ↔ _
  rw [Bool.and_eq_true, decide_eq_true_eq, decide_eq_true_eq]

namespace FieldValue

theorem countOf?_eq_some {n : Int} {count : Nat} (h : countOf? n = some count) :
    (count : Int) = n := by
  unfold countOf? at h
  split at h <;> cases h
  omega

variable {kind : FieldKind} {v : FieldValue} {lower upper : Int} {count : Nat}

/-- A count that has been checked is within the bounds of its field. -/
theorem count_bounds (h : (FieldKind.integerWithin (.within lower upper)).Admits v)
    (hcount : v.count? = some count) : lower ≤ count ∧ count ≤ upper := by
  cases v with
  | integer n =>
    rw [countOf?_eq_some hcount]
    exact Bounds.contains_within_iff.1 h
  | _ => cases h

theorem counts_bounds (h : (FieldKind.integersWithin (.within lower upper)).Admits v)
    (hcount : count ∈ v.counts) : lower ≤ count ∧ count ≤ upper := by
  cases v with
  | integers items =>
    obtain ⟨n, hn, hcount⟩ := List.mem_filterMap.1 hcount
    rw [countOf?_eq_some hcount]
    exact Bounds.contains_within_iff.1 (h n hn)
  | _ => cases h

theorem isWellFormed_of_section?_eq_some {s : Section} (h : kind.Admits v)
    (hs : v.section? = some s) : s.IsWellFormed := by
  cases v with
  | subsection s =>
    cases hs
    cases kind with
    | subsection kinds => exact h.2
    | _ => cases h
  | _ => cases hs

end FieldValue

namespace Schema

/-- Every value is one that a field of the schema has under its name and admits. -/
def Checked (schema : Schema) (f : Fields) : Prop :=
  ∀ name v, f.get? name = some v →
    ∃ field ∈ schema.fields, field.name = name ∧ field.kind.Admits v

/-- From checked fields the schema makes well-formed sections only. -/
def IsSound (schema : Schema) : Prop :=
  ∀ f s, schema.Checked f → schema.build f = .ok s → s.IsWellFormed

variable {schema : Schema} {f : Fields} {name : String}

/-- No two fields have one name. -/
def IsDistinct (schema : Schema) : Prop :=
  (schema.fields.map Field.name).Nodup

instance (schema : Schema) : Decidable schema.IsDistinct := by
  unfold IsDistinct
  infer_instance

theorem Checked.admits (h : schema.Checked f) (hdistinct : schema.IsDistinct) {field : Field}
    (hfield : field ∈ schema.fields) {v : FieldValue} (hv : f.get? field.name = some v) :
    field.kind.Admits v := by
  obtain ⟨other, hother, hname, hadmits⟩ := h field.name v hv
  rw [← List.inj_on_of_nodup_map hdistinct hother hfield hname]
  exact hadmits

theorem require_eq_ok {α : Type} {view : FieldValue → Option α} {a : α}
    (h : require f view name = .ok a) : ∃ v, f.get? name = some v ∧ view v = some a := by
  unfold require at h
  split at h
  case h_1 b hview =>
    cases h
    exact Option.bind_eq_some_iff.1 hview
  case h_2 => cases h

section Within

variable {lower upper : Int} {required : Bool} {count : Nat}

/-- A number that a schema requires is within its bounds. -/
theorem Checked.count_bounds (h : schema.Checked f) (hdistinct : schema.IsDistinct)
    (hfield : ⟨name, .integerWithin (.within lower upper), required⟩ ∈ schema.fields)
    (hrequire : require f FieldValue.count? name = .ok count) :
    lower ≤ count ∧ count ≤ upper := by
  obtain ⟨v, hv, hcount⟩ := require_eq_ok hrequire
  exact FieldValue.count_bounds (h.admits hdistinct hfield hv) hcount

/-- So are all the numbers of a list. -/
theorem Checked.counts_bounds (h : schema.Checked f) (hdistinct : schema.IsDistinct)
    (hfield : ⟨name, .integersWithin (.within lower upper), required⟩ ∈ schema.fields)
    (hcount : count ∈ SortedSet.ofList (f.counts name)) : lower ≤ count ∧ count ≤ upper := by
  replace hcount := SortedSet.mem_ofList.1 hcount
  unfold Fields.counts at hcount
  cases hv : f.get? name with
  | none =>
    rw [hv] at hcount
    cases hcount
  | some v =>
    rw [hv] at hcount
    exact FieldValue.counts_bounds (h.admits hdistinct hfield hv) hcount

end Within

theorem Checked.section_isWellFormed (h : schema.Checked f) {s : Section}
    (hs : f.view? FieldValue.section? name = some s) : s.IsWellFormed := by
  obtain ⟨v, hv, hs⟩ := Option.bind_eq_some_iff.1 hs
  obtain ⟨field, -, -, hadmits⟩ := h name v hv
  exact FieldValue.isWellFormed_of_section?_eq_some hadmits hs

theorem intervalsOf?_eq_alternatives? (s : Section) : intervalsOf? s = s.alternatives? := by
  cases s <;> rfl

theorem isSound_recurrence : recurrence.IsSound := by
  intro f s hchecked hbuild
  obtain ⟨start, -, hs⟩ := exists_of_bind_eq_ok hbuild
  cases hs
  intro intervals hintervals
  obtain ⟨every, hevery, hof⟩ := Option.bind_eq_some_iff.1 hintervals
  rw [intervalsOf?_eq_alternatives?] at hof
  exact (hchecked.section_isWellFormed hevery).alternatives_ne_nil hof

theorem isSound_filter : filter.IsSound := by
  intro f s hchecked hbuild
  cases hbuild
  have hbounds (name : String) (lower upper : Nat)
      (hfield : .may name (.integersWithin (.within lower upper)) ∈ filter.fields) :
      ∀ count ∈ SortedSet.ofList (f.counts name), lower ≤ count ∧ count ≤ upper := by
    intro count hcount
    have := hchecked.counts_bounds (by decide) hfield hcount
    omega
  exact
    { minute_le := fun m hm => (hbounds "minutes" 0 59 (by simp [filter]) m hm).2
      hour_le := fun h hh => (hbounds "hours" 0 23 (by simp [filter]) h hh).2
      day_bounds := hbounds "days" 1 31 (by simp [filter])
      week_bounds := hbounds "weeks" 1 53 (by simp [filter])
      month_bounds := hbounds "months" 1 12 (by simp [filter])
      yearDay_bounds := hbounds "day_numbers" 1 366 (by simp [filter]) }

theorem isSound_constant {s : Section} (hs : s.IsWellFormed) : (constant s).IsSound := by
  intro f made _ hbuild
  cases hbuild
  exact hs

theorem isSound_epoch : epoch.IsSound := by
  intro f s _ hbuild
  obtain ⟨seconds, -, hs⟩ := exists_of_bind_eq_ok hbuild
  split at hs <;> cases hs
  trivial

theorem isSound_amount : amount.IsSound := by
  intro f s _ hbuild
  obtain ⟨number, -, hbuild⟩ := exists_of_bind_eq_ok hbuild
  obtain ⟨name, -, hbuild⟩ := exists_of_bind_eq_ok hbuild
  split at hbuild
  case h_1 => cases hbuild
  case h_2 =>
    split at hbuild <;> cases hbuild
    trivial

theorem isSound_range : range.IsSound := by
  intro f s _ hbuild
  obtain ⟨low, -, hbuild⟩ := exists_of_bind_eq_ok hbuild
  obtain ⟨high, -, hs⟩ := exists_of_bind_eq_ok hbuild
  cases hs
  trivial

theorem isSound_interval : interval.IsSound := by
  intro f s _ hbuild
  simp only [interval] at hbuild
  split at hbuild <;> cases hbuild <;> trivial

theorem isSound_between : between.IsSound := by
  intro f s _ hbuild
  obtain ⟨start, -, hs⟩ := exists_of_bind_eq_ok hbuild
  cases hs
  trivial

theorem isSound_weekdays : weekdays.IsSound := by
  intro f s _ hbuild
  obtain ⟨names, -, hs⟩ := exists_of_bind_eq_ok hbuild
  dsimp only at hs
  split at hs <;> cases hs
  trivial

theorem isSound_yearDay : yearDay.IsSound := by
  intro f s hchecked hbuild
  obtain ⟨number, hnumber, hs⟩ := exists_of_bind_eq_ok hbuild
  cases hs
  have := hchecked.count_bounds (by decide) (List.mem_singleton_self _) hnumber
  change 1 ≤ number ∧ number ≤ 366
  omega

theorem isSound_time : time.IsSound := by
  intro f s hchecked hbuild
  obtain ⟨hour, hhour, hbuild⟩ := exists_of_bind_eq_ok hbuild
  obtain ⟨minute, hminute, hs⟩ := exists_of_bind_eq_ok hbuild
  cases hs
  have hhour := hchecked.count_bounds (by decide) (List.mem_cons_self ..) hhour
  have hminute := hchecked.count_bounds (by decide)
    (List.mem_cons_of_mem _ (List.mem_singleton_self _)) hminute
  exact ClockTime.isSome_timeOfDay? (show hour < 24 by omega) (show minute < 60 by omega)
    (show 0 < 60 by decide)

theorem isSound_date : date.IsSound := by
  intro f s _ hbuild
  obtain ⟨year, -, hbuild⟩ := exists_of_bind_eq_ok hbuild
  obtain ⟨month, -, hbuild⟩ := exists_of_bind_eq_ok hbuild
  obtain ⟨day, -, hs⟩ := exists_of_bind_eq_ok hbuild
  split at hs <;> cases hs
  trivial

theorem isSound_literal : literal.IsSound := by
  intro f s _ hbuild
  obtain ⟨name, -, hbuild⟩ := exists_of_bind_eq_ok hbuild
  split at hbuild
  case h_1 => cases hbuild
  case h_2 =>
    obtain ⟨written, -, hs⟩ := exists_of_bind_eq_ok hbuild
    split at hs <;> cases hs
    trivial

/-- All sections that expressions may use are made well-formed. -/
theorem isSound_of_mem_defaults {entry : String × Schema} (h : entry ∈ defaults) :
    entry.2.IsSound := by
  simp only [defaults, List.mem_cons, List.not_mem_nil, or_false] at h
  rcases h with rfl | rfl | rfl | rfl | rfl | rfl | rfl | rfl | rfl | rfl | rfl | rfl | rfl | rfl |
    rfl | rfl
  exacts [isSound_recurrence, isSound_filter, isSound_constant trivial, isSound_constant trivial,
    isSound_constant trivial, isSound_constant trivial, isSound_epoch, isSound_amount,
    isSound_range, isSound_interval, isSound_between, isSound_weekdays, isSound_yearDay,
    isSound_time, isSound_date, isSound_literal]

end Schema

end Almanac

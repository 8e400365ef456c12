import Almanac.Proofs.Reduction.Call
import Almanac.Proofs.Reduction.Simple

/-!
What the checks of arguments let through. A value that passes is one that its field admits, so the
calls that the registry knows make well-formed sections of well-formed arguments.
-/

namespace Almanac

open Calendar Period Occurrence Reduction

variable {ctx : Context}

theorem WrittenLiteral.isWellFormed_of_expand_eq_ok {l : WrittenLiteral} {s : Section}
    (h : l.expand = .ok s) : s.IsWellFormed := by
  rcases Section.expand_eq_ok h with ⟨_, -, rfl⟩ | ⟨_, -, rfl⟩ | ⟨t, -, rfl⟩ | ⟨_, -, rfl⟩ |
    ⟨r, stop, -, -, rfl⟩
  · trivial
  · trivial
  · exact ClockTime.isSome_timeOfDay?_ofTimeOfDay t
  · trivial
  · exact Recurrence.isWellFormed_of_every_eq_some rfl (List.cons_ne_nil _ _)

theorem Section.IsWellFormed.simplify {s simple : Section} (hs : s.IsWellFormed)
    (h : (s.simplify ctx).CanReturn simple) : simple.IsWellFormed := by
  have hnone (days : SortedSet Weekday) : Filter.IsWithinBounds { weekdays := days } := by
    constructor <;> intro _ hmem <;> cases hmem
  cases s with
  | now | between start stop =>
    cases canReturn_pure_iff.1 h
    exact Recurrence.isWellFormed_of_every_eq_none rfl
  | sunrise | sunset =>
    cases canReturn_pure_iff.1 h
    exact ClockTime.isSome_timeOfDay? (by decide) (by decide) (by decide)
  | weekdays days =>
    cases canReturn_pure_iff.1 h
    exact hnone days
  | yearDay number =>
    cases canReturn_pure_iff.1 h
    refine { hnone .empty with yearDay_bounds := ?_ }
    intro day hday
    rw [List.mem_singleton.1 (SortedSet.mem_ofList.1 hday)]
    exact hs
  | epoch seconds =>
    obtain ⟨i, _, rfl⟩ := canReturn_simplify_epoch h
    trivial
  | range low high =>
    obtain ⟨a, rfl⟩ := canReturn_simplify_range h
    trivial
  | filtered member =>
    cases canReturn_pure_iff.1 h
    exact ⟨List.cons_ne_nil _ _, List.forall_mem_singleton.2 hs⟩
  | literal l => exact WrittenLiteral.isWellFormed_of_expand_eq_ok (canReturn_ofExcept_iff.1 h)
  | _ => cases canReturn_pure_iff.1 h; exact hs

/-- A section that an argument names is well-formed. -/
def Argument.IsWellFormed (a : Argument) : Prop :=
  ∀ reduction s, a.named = some reduction → reduction.CanReturn s → s.IsWellFormed

theorem checkBounds_eq_ok {bounds : Bounds} {n checked : Int}
    (h : checkBounds bounds n = .ok checked) :
    checked = n ∧ bounds.contains checked = true := by
  unfold checkBounds at h
  split at h
  case isTrue hcontains =>
    cases h
    exact ⟨rfl, hcontains⟩
  case isFalse => cases h

theorem checkChoice_eq_ok {options : List String} {s checked : String}
    (h : checkChoice options s = .ok checked) : checked = s ∧ checked ∈ options := by
  unfold checkChoice at h
  split at h
  case isTrue hmem =>
    cases h
    exact ⟨rfl, hmem⟩
  case isFalse => cases h

section Items

variable {α : Type} {check : String → Except Reason α}

theorem exists_of_mem_checkItems {index : Nat} {items : List String} {value : α}
    (h : value ∈ (checkItems check index items).1) : ∃ item, check item = .ok value := by
  induction items generalizing index with
  | nil => cases h
  | cons item rest ih =>
    unfold checkItems at h
    cases hitem : check item with
    | error reason =>
      simp only [hitem] at h
      exact ih h
    | ok a =>
      simp only [hitem] at h
      rcases List.mem_cons.1 h with rfl | h
      · exact ⟨item, hitem⟩
      · exact ih h

/-- Items that pass one by one pass together. -/
theorem checkItems_map {ι : Type} {item : ι → String} {value : ι → α} {entries : List ι}
    (h : ∀ entry ∈ entries, check (item entry) = .ok (value entry)) (index : Nat) :
    checkItems check index (entries.map item) = (entries.map value, []) := by
  induction entries generalizing index with
  | nil => rfl
  | cons entry rest ih =>
    rw [List.forall_mem_cons] at h
    rw [List.map_cons, List.map_cons, checkItems, ih h.2 (index + 1), h.1]

theorem checkList_map {ι : Type} {item : ι → String} {value : ι → α} {entries : List ι}
    (h : ∀ entry ∈ entries, check (item entry) = .ok (value entry)) :
    checkList check (entries.map item) = .ok (entries.map value) := by
  rw [checkList, checkItems_map h]

theorem checkList_weekdayNames (days : List Weekday) :
    checkList (checkChoice Weekday.names) (days.map Weekday.name) =
      .ok (days.map Weekday.name) := by
  refine checkList_map fun day _ => if_pos ?_
  cases day <;> decide

/-- A list that passes holds what its items passed as. -/
theorem exists_of_checkList_eq_ok {items : List String} {values : List α}
    (h : checkList check items = .ok values) :
    ∀ value ∈ values, ∃ item, check item = .ok value := by
  intro value hvalue
  unfold checkList at h
  split at h
  case h_1 passed hitems =>
    cases h
    apply exists_of_mem_checkItems
    rw [hitems]
    exact hvalue
  case h_2 => cases h

end Items

variable {a : Argument} {args : List (String × Argument)}

theorem checkKind_eq_ok {wanted : List Section.Kind} {s checked : Section}
    (h : checkKind wanted s = .ok checked) : checked = s ∧ s.kind ∈ wanted := by
  unfold checkKind at h
  split at h
  case isTrue hkind =>
    cases h
    exact ⟨rfl, hkind⟩
  case isFalse => cases h

/-- What passes the check of a field is admitted by it. -/
theorem FieldKind.admits_of_canReturn_check {kind : FieldKind} {v : FieldValue}
    (ha : a.IsWellFormed) (h : (kind.check ctx a).CanReturn v) : kind.Admits v := by
  cases kind with
  | integer | number | text =>
    obtain ⟨_, -, rfl⟩ := exists_of_map_eq_ok (canReturn_ofExcept_iff.1 h)
    trivial
  | integerWithin bounds =>
    obtain ⟨n, hn, rfl⟩ := exists_of_map_eq_ok (canReturn_ofExcept_iff.1 h)
    obtain ⟨_, -, hcheck⟩ := exists_of_bind_eq_ok hn
    exact (checkBounds_eq_ok hcheck).2
  | choice options =>
    obtain ⟨s, hs, rfl⟩ := exists_of_map_eq_ok (canReturn_ofExcept_iff.1 h)
    obtain ⟨_, -, hcheck⟩ := exists_of_bind_eq_ok hs
    exact (checkChoice_eq_ok hcheck).2
  | integersWithin bounds =>
    obtain ⟨values, hvalues, rfl⟩ := exists_of_map_eq_ok (canReturn_ofExcept_iff.1 h)
    obtain ⟨_, -, hcheck⟩ := exists_of_bind_eq_ok hvalues
    intro n hn
    obtain ⟨item, hitem⟩ := exists_of_checkList_eq_ok hcheck n hn
    obtain ⟨_, -, hcheck⟩ := exists_of_bind_eq_ok hitem
    exact (checkBounds_eq_ok hcheck).2
  | choices options =>
    obtain ⟨values, hvalues, rfl⟩ := exists_of_map_eq_ok (canReturn_ofExcept_iff.1 h)
    obtain ⟨_, -, hcheck⟩ := exists_of_bind_eq_ok hvalues
    intro s hs
    obtain ⟨item, hitem⟩ := exists_of_checkList_eq_ok hcheck s hs
    exact (checkChoice_eq_ok hitem).2
  | subsection kinds =>
    obtain ⟨named, hnamed, h⟩ := exists_of_canReturn_bind h
    obtain ⟨simple, hsimple, h⟩ := exists_of_canReturn_bind h
    obtain ⟨s, hkind, rfl⟩ := exists_of_map_eq_ok (canReturn_ofExcept_iff.1 h)
    obtain ⟨rfl, hmem⟩ := checkKind_eq_ok hkind
    obtain ⟨reduction, hreduction, hreturn⟩ := Argument.exists_of_canReturn_toSection hnamed
    exact ⟨hmem, (ha reduction named hreduction hreturn).simplify (canReturn_of_mapError hsimple)⟩
  | bound forever =>
    obtain ⟨_, -, rfl⟩ := exists_of_canReturn_map h
    trivial

theorem Field.admits_of_canReturn_check {field : Field} {v : FieldValue}
    (hargs : ∀ entry ∈ args, entry.2.IsWellFormed)
    (h : (field.check ctx args).CanReturn (some v)) : field.kind.Admits v := by
  obtain ⟨a, ha, hcheck⟩ := Field.exists_of_canReturn_check h
  exact FieldKind.admits_of_canReturn_check (hargs _ (Keyed.mem_of_get?_eq_some ha)) hcheck

/-- The values that are left of the arguments have passed the checks. -/
theorem Schema.checked_fieldValues (schema : Schema) {outcomes : List FieldOutcome}
    {g g' : Generator} (hargs : ∀ entry ∈ args, entry.2.IsWellFormed)
    (h : Turns ctx args schema.fields g outcomes g') : schema.Checked (fieldValues outcomes) := by
  intro name v hv
  obtain ⟨field, hfield, hname, hcheck⟩ := h.exists_of_mem (mem_of_get?_fieldValues hv)
  exact ⟨field, hfield, hname, Field.admits_of_canReturn_check hargs hcheck⟩

theorem Registry.mem_defaults_of_resolve?_eq_some {name : String} {schema : Schema}
    (h : Registry.defaults.resolve? name = some schema) : (name, schema) ∈ Schema.defaults := by
  revert h
  refine List.foldlRecOn (motive := fun registry : Registry =>
    registry.resolve? name = some schema → (name, schema) ∈ Schema.defaults)
    Schema.defaults _ ?_ ?_
  · intro h
    cases h
  · intro registry hregistry entry hentry h
    unfold Registry.resolve? Registry.register at h
    rw [Keyed.get?_insert] at h
    split at h
    case isTrue hname =>
      cases h
      exact hname ▸ hentry
    case isFalse => exact hregistry h

/-- A call that makes a section is of a known name, and its arguments have passed. -/
theorem Context.exists_of_canReturn_call (hregistry : ctx.registry = .defaults) {name : String}
    {s : Section} (h : (ctx.call name args).CanReturn s) :
    ∃ schema g outcomes g', (name, schema) ∈ Schema.defaults ∧
      Turns ctx args schema.fields g outcomes g' ∧
      schema.build (fieldValues outcomes) = .ok s := by
  unfold Context.call at h
  split at h
  case h_1 schema hresolve =>
    rw [hregistry] at hresolve
    have hmem := Registry.mem_defaults_of_resolve?_eq_some hresolve
    obtain ⟨g, g', hrun⟩ := h
    obtain ⟨-, outcomes, hturns, -, hbuild⟩ := Schema.run_apply_eq_ok_iff.1 hrun
    exact ⟨schema, g, outcomes, g', hmem, hturns, hbuild⟩
  case h_2 => exact absurd h not_canReturn_fail

theorem Context.isWellFormed_of_canReturn_call (hregistry : ctx.registry = .defaults)
    {name : String} {s : Section} (hargs : ∀ entry ∈ args, entry.2.IsWellFormed)
    (h : (ctx.call name args).CanReturn s) : s.IsWellFormed := by
  obtain ⟨schema, g, outcomes, g', hmem, hturns, hbuild⟩ :=
    Context.exists_of_canReturn_call hregistry h
  exact Schema.isSound_of_mem_defaults hmem _ s (schema.checked_fieldValues hargs hturns) hbuild

end Almanac

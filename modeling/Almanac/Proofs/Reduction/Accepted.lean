import Almanac.Proofs.Reduction.Problems
import Almanac.Proofs.Schema.Build

/-!
What the fields of a schema hold once nothing is wrong with the arguments of a call: what the kind
of each field makes of the value as it is written, and nothing where an argument is left out.
-/

namespace Almanac

open Expression Occurrence Reduction

variable {ctx : Context}

/-- The fields of that kind accept the value, as it is written, and hold it as that. -/
inductive FieldKind.Takes : FieldKind → Value → FieldValue → Prop where
  | integer {value : Value} {n : Int} (h : integerOf value = .ok n) :
      Takes .integer value (.integer n)
  | integerWithin {bounds : Bounds} {value : Value} {n : Int} (h : integerOf value = .ok n)
      (hbounds : bounds.contains n = true) : Takes (.integerWithin bounds) value (.integer n)
  | number {value : Value} {x : Binary64} (h : numberOf value = .ok x) :
      Takes .number value (.number x)
  | text {value : Value} {s : String} (h : textOf value = .ok s) : Takes .text value (.text s)
  | choice {options : List String} {value : Value} {s : String} (h : textOf value = .ok s)
      (hmem : s ∈ options) : Takes (.choice options) value (.text s)
  | integersWithin {bounds : Bounds} {value : Value} {items : List String} {numbers : List Int}
      (hitems : itemsOf value = .ok items)
      (hnumbers : List.Forall₂
        (fun item n => integerOf (.text item) = .ok n ∧ bounds.contains n = true) items numbers) :
      Takes (.integersWithin bounds) value (.integers numbers)
  | choices {options : List String} {value : Value} {items : List String}
      (hitems : itemsOf value = .ok items) (hmem : ∀ item ∈ items, item ∈ options) :
      Takes (.choices options) value (.texts items)
  | subsection {kinds : List Section.Kind} {value : Value} {s : Section} (hkind : s.kind ∈ kinds) :
      Takes (.subsection kinds) value (.subsection s)
  | moment {forever : Bool} {value : Value} {i : Calendar.Instant} :
      Takes (.bound forever) value (.bound (.moment i))
  | forever {value : Value} : Takes (.bound true) value (.bound .forever)

/-- Where an end that never comes is not admitted, no section is taken for one. -/
theorem Section.not_canReturn_toBound_forever (s : Section) :
    ¬ (s.toBound ctx false).CanReturn .forever := by
  intro h
  obtain ⟨expanded, -, hdirect⟩ := exists_of_canReturn_bind h
  cases expanded with
  | weekdays days =>
    obtain ⟨_, -, hmoment⟩ := exists_of_canReturn_map hdirect
    cases hmoment
  | recurrence | epoch | time | yearDay =>
    simp only [directBound] at hdirect
    split at hdirect <;> simp at hdirect
  | _ => simp [directBound] at hdirect

/-- What passes the check of a list of choices is the list itself. -/
theorem eq_of_forall₂_checkChoice {options items checked : List String}
    (h : List.Forall₂ (fun item value => checkChoice options item = .ok value) items checked) :
    checked = items ∧ ∀ item ∈ items, item ∈ options := by
  induction h with
  | nil => simp
  | cons hfirst _ ih =>
    obtain ⟨rfl, hmem⟩ := checkChoice_eq_ok hfirst
    obtain ⟨rfl, hrest⟩ := ih
    exact ⟨rfl, List.forall_mem_cons.2 ⟨hmem, hrest⟩⟩

theorem FieldKind.takes_of_canReturn_check {kind : FieldKind} {a : Argument} {v : FieldValue}
    (h : (kind.check ctx a).CanReturn v) : kind.Takes a.value v := by
  cases kind with
  | integer =>
    obtain ⟨n, hn, rfl⟩ := exists_of_map_eq_ok (canReturn_ofExcept_iff.1 h)
    exact .integer hn
  | integerWithin bounds =>
    obtain ⟨_, hchecked, rfl⟩ := exists_of_map_eq_ok (canReturn_ofExcept_iff.1 h)
    obtain ⟨n, hn, hcheck⟩ := exists_of_bind_eq_ok hchecked
    obtain ⟨rfl, hbounds⟩ := checkBounds_eq_ok hcheck
    exact .integerWithin hn hbounds
  | number =>
    obtain ⟨x, hx, rfl⟩ := exists_of_map_eq_ok (canReturn_ofExcept_iff.1 h)
    exact .number hx
  | text =>
    obtain ⟨s, hs, rfl⟩ := exists_of_map_eq_ok (canReturn_ofExcept_iff.1 h)
    exact .text hs
  | choice options =>
    obtain ⟨_, hchecked, rfl⟩ := exists_of_map_eq_ok (canReturn_ofExcept_iff.1 h)
    obtain ⟨s, hs, hcheck⟩ := exists_of_bind_eq_ok hchecked
    obtain ⟨rfl, hmem⟩ := checkChoice_eq_ok hcheck
    exact .choice hs hmem
  | integersWithin bounds =>
    obtain ⟨numbers, hchecked, rfl⟩ := exists_of_map_eq_ok (canReturn_ofExcept_iff.1 h)
    obtain ⟨items, hitems, hcheck⟩ := exists_of_bind_eq_ok hchecked
    refine .integersWithin hitems ((checkList_eq_ok_iff.1 hcheck).imp fun item number hitem => ?_)
    obtain ⟨n, hn, hbounds⟩ := exists_of_bind_eq_ok hitem
    obtain ⟨rfl, hcontains⟩ := checkBounds_eq_ok hbounds
    exact ⟨hn, hcontains⟩
  | choices options =>
    obtain ⟨checked, hchecked, rfl⟩ := exists_of_map_eq_ok (canReturn_ofExcept_iff.1 h)
    obtain ⟨items, hitems, hcheck⟩ := exists_of_bind_eq_ok hchecked
    obtain ⟨rfl, hmem⟩ := eq_of_forall₂_checkChoice (checkList_eq_ok_iff.1 hcheck)
    exact .choices hitems hmem
  | subsection kinds =>
    obtain ⟨_, -, h⟩ := exists_of_canReturn_bind h
    obtain ⟨simple, -, h⟩ := exists_of_canReturn_bind h
    obtain ⟨s, hcheck, rfl⟩ := exists_of_map_eq_ok (canReturn_ofExcept_iff.1 h)
    obtain ⟨rfl, hkind⟩ := checkKind_eq_ok hcheck
    exact .subsection hkind
  | bound forever =>
    obtain ⟨b, hb, rfl⟩ := exists_of_canReturn_map h
    obtain ⟨s, -, hbound⟩ := exists_of_canReturn_bind hb
    cases b with
    | moment i => exact .moment
    | forever =>
      cases forever with
      | false => exact absurd hbound s.not_canReturn_toBound_forever
      | true => exact .forever

theorem Bounds.exists_natCast_of_contains {n lower upper : Int} (hlower : 0 ≤ lower)
    (hupper : upper < Text.word32) (h : (Bounds.within lower upper).contains n = true) :
    ∃ count : Nat, n = count ∧ count < Text.word32 := by
  obtain ⟨hle, hge⟩ := contains_within_iff.1 h
  exact ⟨n.toNat, by omega, by omega⟩

namespace Schema

variable {schema : Schema} {args : List (String × Value)} {f : Fields} {name : String}
  {kind : FieldKind} {lower upper : Int} {outcomes : List FieldOutcome} {g g' : Generator}

/-- Each field holds what its kind makes of its argument, and nothing if there is none. -/
def Filled (schema : Schema) (args : List (String × Value)) (f : Fields) : Prop :=
  ∀ field ∈ schema.fields,
    (∃ value v, Keyed.get? args field.name = some value ∧ f.get? field.name = some v ∧
      field.kind.Takes value v) ∨
    (field.required = false ∧ Keyed.get? args field.name = none ∧ f.get? field.name = none)

theorem Filled.must (h : schema.Filled args f) (hfield : .must name kind ∈ schema.fields) :
    ∃ value v, Keyed.get? args name = some value ∧ f.get? name = some v ∧ kind.Takes value v := by
  rcases h _ hfield with hfilled | ⟨hoptional, -⟩
  · exact hfilled
  · cases hoptional

theorem Filled.may (h : schema.Filled args f) (hfield : .may name kind ∈ schema.fields) :
    (∃ value v, Keyed.get? args name = some value ∧ f.get? name = some v ∧ kind.Takes value v) ∨
      (Keyed.get? args name = none ∧ f.get? name = none) :=
  (h _ hfield).imp_right And.right

/-- If nothing is wrong with the arguments, all fields are filled with them. -/
theorem filled_of_not_isProblem (hdistinct : schema.IsDistinct)
    (hkeys : (args.map Prod.fst).Nodup)
    (hturns : Turns ctx (ctx.arguments args) schema.fields g outcomes g')
    (hnone : ¬ ∃ problem, schema.IsProblem ctx args g problem) :
    schema.Filled args (fieldValues outcomes) := by
  have hnil := (problems_eq_nil_iff hkeys hturns).2 hnone
  have hpassed := fieldProblems_eq_nil_iff.1 (List.append_eq_nil_iff.1 hnil).2
  have hnames : (outcomes.map Prod.fst).Nodup := by
    rw [hturns.map_fst]
    exact hdistinct
  intro field hfield
  obtain ⟨turn, outcome, after, -, hcheck, hmem⟩ := hturns.exists_hasTurn hfield
  obtain ⟨v, rfl⟩ := hpassed _ hmem
  rw [get?_fieldValues hnames hmem]
  replace hcheck := canReturn_of_run hcheck
  rw [Field.check_arguments] at hcheck
  cases hget : Keyed.get? args field.name with
  | none =>
    cases hrequired : field.required <;> simp [hget, hrequired] at hcheck
    exact .inr ⟨rfl, rfl, hcheck.symm⟩
  | some value =>
    simp only [hget] at hcheck
    obtain ⟨made, hmade, rfl⟩ := exists_of_canReturn_map hcheck
    exact .inl ⟨value, made, rfl, rfl, FieldKind.takes_of_canReturn_check hmade⟩

theorem Filled.exists_start (h : schema.Filled args f)
    (hfield : .must "start" (.bound false) ∈ schema.fields) :
    ∃ start, requireStart f = .ok start := by
  obtain ⟨value, v, -, hv, htakes⟩ := h.must hfield
  cases htakes with
  | @moment _ _ start => exact ⟨start, requireStart_of_get? hv⟩

theorem Filled.exists_number (h : schema.Filled args f)
    (hfield : .must name .number ∈ schema.fields) :
    ∃ value x, Keyed.get? args name = some value ∧ numberOf value = .ok x ∧
      require f FieldValue.number? name = .ok x := by
  obtain ⟨value, v, hvalue, hv, htakes⟩ := h.must hfield
  cases htakes with
  | number hnumber => exact ⟨value, _, hvalue, hnumber, require_eq_ok_of_get? hv rfl⟩

theorem Filled.exists_integer (h : schema.Filled args f)
    (hfield : .must name .integer ∈ schema.fields) :
    ∃ value n, Keyed.get? args name = some value ∧ integerOf value = .ok n ∧
      require f FieldValue.integer? name = .ok n := by
  obtain ⟨value, v, hvalue, hv, htakes⟩ := h.must hfield
  cases htakes with
  | integer hinteger => exact ⟨value, _, hvalue, hinteger, require_eq_ok_of_get? hv rfl⟩

theorem Filled.exists_natural (h : schema.Filled args f)
    (hfield : .must name (.integerWithin .natural) ∈ schema.fields) :
    ∃ n : Nat, f.get? name = some (.integer n) := by
  obtain ⟨value, v, hvalue, hv, htakes⟩ := h.must hfield
  cases htakes with
  | @integerWithin _ _ n _ hbounds =>
    rw [Bounds.contains, Bool.and_eq_true, decide_eq_true_eq] at hbounds
    have hpos : 0 ≤ n := hbounds.1
    exact ⟨n.toNat, by rw [hv, Int.toNat_of_nonneg hpos]⟩

/-- A number within bounds that are not negative and small enough is a count. -/
theorem Filled.exists_count (h : schema.Filled args f)
    (hfield : .must name (.integerWithin (.within lower upper)) ∈ schema.fields)
    (hlower : 0 ≤ lower) (hupper : upper < Text.word32) :
    ∃ value, ∃ count : Nat, Keyed.get? args name = some value ∧ integerOf value = .ok count ∧
      require f FieldValue.count? name = .ok count := by
  obtain ⟨value, v, hvalue, hv, htakes⟩ := h.must hfield
  cases htakes with
  | integerWithin hinteger hbounds =>
    obtain ⟨count, rfl, hword⟩ := Bounds.exists_natCast_of_contains hlower hupper hbounds
    exact ⟨value, count, hvalue, hinteger,
      require_eq_ok_of_get? hv (FieldValue.count?_integer hword)⟩

theorem Filled.exists_text (h : schema.Filled args f) (hfield : .must name .text ∈ schema.fields) :
    ∃ value s, Keyed.get? args name = some value ∧ textOf value = .ok s ∧
      require f FieldValue.text? name = .ok s := by
  obtain ⟨value, v, hvalue, hv, htakes⟩ := h.must hfield
  cases htakes with
  | text htext => exact ⟨value, _, hvalue, htext, require_eq_ok_of_get? hv rfl⟩

theorem Filled.exists_choice {options : List String} (h : schema.Filled args f)
    (hfield : .must name (.choice options) ∈ schema.fields) :
    ∃ value s, Keyed.get? args name = some value ∧ textOf value = .ok s ∧ s ∈ options ∧
      f.get? name = some (.text s) := by
  obtain ⟨value, v, hvalue, hv, htakes⟩ := h.must hfield
  cases htakes with
  | choice htext hmem => exact ⟨value, _, hvalue, htext, hmem, hv⟩

theorem Filled.exists_section {kinds : List Section.Kind} (h : schema.Filled args f)
    (hfield : .must name (.subsection kinds) ∈ schema.fields) :
    ∃ s, s.kind ∈ kinds ∧ f.get? name = some (.subsection s) := by
  obtain ⟨value, v, hvalue, hv, htakes⟩ := h.must hfield
  cases htakes with
  | subsection hkind => exact ⟨_, hkind, hv⟩

theorem Filled.exists_amount (h : schema.Filled args f)
    (hfield : .must name (.subsection [.amount]) ∈ schema.fields) :
    ∃ a, f.get? name = some (.subsection (.amount a)) := by
  obtain ⟨s, hkind, hv⟩ := h.exists_section hfield
  cases s <;> simp [Section.kind] at hkind
  exact ⟨_, hv⟩

end Schema

end Almanac

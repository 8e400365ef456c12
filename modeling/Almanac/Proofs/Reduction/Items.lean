import Almanac.Proofs.Reduction.Argument

/-!
Lists as arguments, item by item. A list passes with what each of its items passes as, and a list
that does not pass fails with all of its bad items and no other.
-/

namespace Almanac

open Expression

/-- Every bad item of a list with its place from 0 and what is wrong with it, each once and in the
order of the list. -/
structure IsItemReport (rejects : String → Reason → Prop) (items : List String)
    (problems : List (Nat × Reason)) : Prop where
  mem_iff : ∀ place reason, (place, reason) ∈ problems ↔
    ∃ item, items[place]? = some item ∧ rejects item reason
  ascending : (problems.map Prod.fst).Pairwise (· < ·)

/-- What a list is mapped to, where it is, stands in the order of the list. -/
theorem map_filterMap_sublist {α β γ : Type} {f : α → Option β} {key : β → γ} {place : α → γ}
    (h : ∀ a b, f a = some b → key b = place a) (as : List α) :
    ((as.filterMap f).map key).Sublist (as.map place) := by
  induction as with
  | nil => exact .slnil
  | cons a rest ih =>
    rw [List.filterMap_cons, List.map_cons]
    cases ha : f a with
    | none => exact ih.cons _
    | some b =>
      rw [List.map_cons, h a b ha]
      exact ih.cons_cons _

section Items

variable {α : Type} {check : String → Except Reason α} {items : List String}

/-- What is wrong with an item, with the place where it stands. -/
def itemProblem? (check : String → Except Reason α) (entry : String × Nat) :
    Option (Nat × Reason) :=
  match check entry.1 with
  | .ok _ => none
  | .error reason => some (entry.2, reason)

theorem itemProblem?_eq_some_iff {entry : String × Nat} {place : Nat} {reason : Reason} :
    itemProblem? check entry = some (place, reason) ↔
      entry.2 = place ∧ check entry.1 = .error reason := by
  unfold itemProblem?
  cases check entry.1 <;> simp

theorem problems_checkItems (check : String → Except Reason α) (index : Nat)
    (items : List String) :
    (checkItems check index items).2 = (items.zipIdx index).filterMap (itemProblem? check) := by
  induction items generalizing index with
  | nil => rfl
  | cons first rest ih =>
    unfold checkItems
    rw [List.zipIdx_cons, List.filterMap_cons, itemProblem?]
    cases check first with
    | ok value => exact ih (index + 1)
    | error reason => exact congrArg _ (ih (index + 1))

theorem isItemReport_checkItems {rejects : String → Reason → Prop}
    (h : ∀ item reason, check item = .error reason ↔ rejects item reason) :
    IsItemReport rejects items (checkItems check 0 items).2 where
  mem_iff place reason := by
    simp only [problems_checkItems, List.mem_filterMap, itemProblem?_eq_some_iff, Prod.exists,
      List.mk_mem_zipIdx_iff_getElem?, h]
    exact ⟨fun ⟨item, _, hitem, hplace, hrejects⟩ => ⟨item, hplace ▸ hitem, hrejects⟩,
      fun ⟨item, hitem, hrejects⟩ => ⟨item, place, hitem, rfl, hrejects⟩⟩
  ascending := by
    have hplaces : (items.zipIdx.map Prod.snd).Pairwise (· < ·) := by
      rw [List.zipIdx_map_snd]
      exact List.pairwise_lt_range'
    rw [problems_checkItems]
    exact hplaces.sublist (map_filterMap_sublist
      (fun _ _ hproblem => (itemProblem?_eq_some_iff.1 hproblem).1.symm) _)

theorem checkItems_eq_iff (index : Nat) {values : List α} :
    checkItems check index items = (values, []) ↔
      List.Forall₂ (fun item value => check item = .ok value) items values := by
  induction items generalizing index values with
  | nil => simp [checkItems, eq_comm]
  | cons first rest ih =>
    unfold checkItems
    cases hfirst : check first with
    | ok value =>
      simp only [Prod.mk.injEq]
      constructor
      · rintro ⟨rfl, hproblems⟩
        exact .cons hfirst ((ih _).1 (Prod.ext rfl hproblems))
      · rintro (_ | ⟨hvalue, hvalues⟩)
        rw [hfirst] at hvalue
        cases hvalue
        rw [(ih _).2 hvalues]
        exact ⟨rfl, rfl⟩
    | error reason =>
      refine iff_of_false (by simp) ?_
      rintro (_ | ⟨hvalue, -⟩)
      rw [hfirst] at hvalue
      cases hvalue

/-- A list passes with what each of its items passes as. -/
theorem checkList_eq_ok_iff {values : List α} :
    checkList check items = .ok values ↔
      List.Forall₂ (fun item value => check item = .ok value) items values := by
  rw [← checkItems_eq_iff 0]
  unfold checkList
  split
  case h_1 passed hitems =>
    rw [hitems, Except.ok.injEq, Prod.mk.injEq, and_iff_left rfl]
  case h_2 problems hsome hitems =>
    rw [hitems, Prod.mk.injEq]
    exact iff_of_false (fun h => nomatch h) fun h => hsome h.2

/-- A list that holds bad items fails with all of them, and one that holds none passes. -/
theorem exists_isItemReport_checkList {β : Type} (pack : List α → β)
    {rejects : String → Reason → Prop}
    (h : ∀ item reason, check item = .error reason ↔ rejects item reason) (items : List String) :
    ∃ problems, IsItemReport rejects items problems ∧
      (problems ≠ [] →
        Reduction.ofExcept ((checkList check items).map pack) = .fail (.items problems)) ∧
      (problems = [] →
        ∃ packed, Reduction.ofExcept ((checkList check items).map pack) = pure packed) := by
  refine ⟨_, isItemReport_checkItems h, fun hsome => ?_, fun hnil => ?_⟩
  · unfold checkList
    split
    case h_1 hitems =>
      rw [hitems] at hsome
      exact absurd rfl hsome
    case h_2 hitems => rw [hitems, Except.map, Reduction.ofExcept_error]
  · have hvalues : checkItems check 0 items = ((checkItems check 0 items).1, []) :=
      Prod.ext rfl hnil
    have hpassed := checkList_eq_ok_iff.2 ((checkItems_eq_iff 0).1 hvalues)
    exact ⟨_, by rw [hpassed, Except.map, Reduction.ofExcept_ok]⟩

end Items

/-- What is wrong with an item of a list that a field of that kind takes. -/
inductive FieldKind.RejectsItem : FieldKind → String → Reason → Prop where
  | notInteger {bounds : Bounds} {item : String} (h : Text.readWord64? item.toList = none) :
      RejectsItem (.integersWithin bounds) item (.notInteger (.text item))
  | outOfBounds {bounds : Bounds} {item : String} {n : Int}
      (h : Text.readWord64? item.toList = some n) (hbounds : bounds.contains n = false) :
      RejectsItem (.integersWithin bounds) item (.outOfBounds bounds n)
  | notChoice {options : List String} {item : String} (h : item ∉ options) :
      RejectsItem (.choices options) item (.notChoice options item)

/-- Whether fields of that kind take lists. -/
def FieldKind.takesItems : FieldKind → Bool
  | .integersWithin _ | .choices _ => true
  | _ => false

variable {ctx : Context} {a : Argument} {items : List String}

theorem integerOf_text_eq_ok_iff {item : String} {n : Int} :
    integerOf (.text item) = .ok n ↔ Text.readWord64? item.toList = some n := by
  cases hread : Text.readWord64? item.toList <;> simp [integerOf, hread]

theorem integerOf_text_eq_error_iff {item : String} {reason : Reason} :
    integerOf (.text item) = .error reason ↔
      Text.readWord64? item.toList = none ∧ reason = .notInteger (.text item) := by
  cases hread : Text.readWord64? item.toList <;> simp [integerOf, hread, eq_comm]

theorem checkBounds_eq_error_iff {bounds : Bounds} {n : Int} {reason : Reason} :
    checkBounds bounds n = .error reason ↔
      bounds.contains n = false ∧ reason = .outOfBounds bounds n := by
  unfold checkBounds
  cases bounds.contains n <;> simp [eq_comm]

theorem integer_eq_error_iff {bounds : Bounds} {item : String} {reason : Reason} :
    (integerOf (.text item)).bind (checkBounds bounds) = .error reason ↔
      (FieldKind.integersWithin bounds).RejectsItem item reason := by
  simp only [bind_eq_error_iff, integerOf_text_eq_error_iff, integerOf_text_eq_ok_iff,
    checkBounds_eq_error_iff]
  constructor
  · rintro (⟨hnone, rfl⟩ | ⟨n, hsome, hbounds, rfl⟩)
    · exact .notInteger hnone
    · exact .outOfBounds hsome hbounds
  · intro h
    cases h with
    | notInteger hnone => exact .inl ⟨hnone, rfl⟩
    | outOfBounds hsome hbounds => exact .inr ⟨_, hsome, hbounds, rfl⟩

theorem choice_eq_error_iff {options : List String} {item : String} {reason : Reason} :
    checkChoice options item = .error reason ↔
      (FieldKind.choices options).RejectsItem item reason := by
  unfold checkChoice
  constructor
  · intro h
    split at h <;> cases h
    exact .notChoice ‹_›
  · intro h
    cases h with
    | notChoice hnot => exact if_neg hnot

theorem FieldKind.check_integersWithin {bounds : Bounds} (hitems : itemsOf a.value = .ok items) :
    (integersWithin bounds).check ctx a = .ofExcept
      ((checkList (fun item => (integerOf (.text item)).bind (checkBounds bounds)) items).map
        .integers) := by
  rw [check, hitems]
  rfl

theorem FieldKind.check_choices {options : List String} (hitems : itemsOf a.value = .ok items) :
    (choices options).check ctx a =
      .ofExcept ((checkList (checkChoice options) items).map .texts) := by
  rw [check, hitems]
  rfl

/-- A field that takes lists tells all bad items of a list, and passes a list without. -/
theorem FieldKind.exists_isItemReport (kind : FieldKind) (ctx : Context) (a : Argument)
    (hkind : kind.takesItems = true) (hitems : itemsOf a.value = .ok items) :
    ∃ problems, IsItemReport kind.RejectsItem items problems ∧
      (problems ≠ [] → kind.check ctx a = .fail (.items problems)) ∧
      (problems = [] → ∃ v, kind.check ctx a = pure v) := by
  cases kind with
  | integersWithin bounds =>
    rw [check_integersWithin hitems]
    exact exists_isItemReport_checkList _ (fun _ _ => integer_eq_error_iff) items
  | choices options =>
    rw [check_choices hitems]
    exact exists_isItemReport_checkList _ (fun _ _ => choice_eq_error_iff) items
  | _ => cases hkind

end Almanac

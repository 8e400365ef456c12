import Almanac.Proofs.Reduction.Legible
import Almanac.Proofs.Reduction.Listing

/-!
Sections that are shown as calls. What is shown is read as a call that makes the same section, on
any clock and without drawing anything.
-/

namespace Almanac

open Calendar Period Occurrence Expression

variable {schema : Schema} {key name text : String} {required : Bool} {n : Nat}

namespace Entry

def ofNumber (key : String) (n : Nat) : Entry where
  key := key
  text := Text.natural n
  value := .integer n
  checked := .integer n

def ofName (key name : String) : Entry where
  key := key
  text := name
  value := .text name
  checked := .text name

theorem spells_natural (hword : Text.IsWord64 n) :
    Spells (Text.natural n).toList (.value (.integer n)) := by
  have hspells := (IsItem.integer hword).isBareToken.spells (Text.integer_toList_ne_nil n)
  rwa [ofToken_integer hword, Text.integer_natCast] at hspells

theorem accepts_ofNumber {bounds : Bounds} (hkey : IsName key.toList)
    (hfield : ⟨key, .integerWithin bounds, required⟩ ∈ schema.fields) (hword : Text.IsWord64 n)
    (hbounds : bounds.contains n = true) : schema.Accepts (ofNumber key n) := by
  refine ⟨hkey, spells_natural hword, _, hfield, rfl, fun ctx _ => ?_⟩
  change Reduction.ofExcept ((checkBounds bounds n).map FieldValue.integer) = _
  rw [checkBounds, if_pos hbounds]
  rfl

theorem accepts_ofAnyNumber (hkey : IsName key.toList)
    (hfield : ⟨key, .integer, required⟩ ∈ schema.fields) (hword : Text.IsWord64 n) :
    schema.Accepts (ofNumber key n) :=
  ⟨hkey, spells_natural hword, _, hfield, rfl, fun _ _ => rfl⟩

theorem accepts_ofName {options : List String} (hkey : IsName key.toList)
    (hfield : ⟨key, .choice options, required⟩ ∈ schema.fields)
    (hspells : Spells name.toList (.value (.text name))) (hmem : name ∈ options) :
    schema.Accepts (ofName key name) := by
  refine ⟨hkey, hspells, _, hfield, rfl, fun ctx _ => ?_⟩
  change Reduction.ofExcept ((checkChoice options name).map FieldValue.text) = _
  rw [checkChoice, if_pos hmem]
  rfl

/-- A call as an argument is simplified, and has to be of a variant that the field has. -/
theorem exists_accepts_of_isCalledBy {s simple : Section} {kinds : List Section.Kind}
    (hkey : IsName key.toList) (hfield : ⟨key, .subsection kinds, required⟩ ∈ schema.fields)
    (hcall : s.IsCalledBy text) (hsimple : ∀ ctx : Context, s.simplify ctx = pure simple)
    (hkind : simple.kind ∈ kinds) : ∃ v, schema.Accepts ⟨key, text, v, .subsection simple⟩ := by
  obtain ⟨name, args, hspells, hmade⟩ := hcall
  refine ⟨.call name args, hkey, .nested hspells, _, hfield, rfl, fun ctx hregistry => ?_⟩
  rw [FieldKind.check, Context.toSection_call (hmade ctx hregistry), pure_bind, hsimple ctx,
    Reduction.mapError_pure, pure_bind, checkKind, if_pos hkind]
  rfl

end Entry

theorem spells_unitName (unit : TimeUnit) : Spells unit.name.toList (.value (.text unit.name)) := by
  have hbare : IsBareToken unit.name.toList := by cases unit <;> decide
  have hvalue : Value.ofToken unit.name.toList = .text unit.name := by cases unit <;> rfl
  rw [← hvalue]
  exact hbare.spells (by cases unit <;> decide)

section Call

theorem isCalledBy_amount {a : Amount} (h : a.IsLegible) :
    (Section.amount a).IsCalledBy a.text := by
  have hnum : .must "num" (.integerWithin .natural) ∈ Schema.amount.fields := by
    simp [Schema.amount]
  have hsize : .must "size" (.choice TimeUnit.names) ∈ Schema.amount.fields := by
    simp [Schema.amount]
  have hunit : a.unit.name ∈ TimeUnit.names := by cases a.unit <;> decide
  have hpos : Bounds.natural.contains a.number = true := by simp [Bounds.natural, Bounds.contains]
  have htext : a.text = callText "amount"
      ([Entry.ofNumber "num" a.number, Entry.ofName "size" a.unit.name].map Entry.written) := by
    rw [Entry.callText_pair]
    rfl
  rw [htext]
  refine isCalledBy_of_filled (by decide) rfl (by decide) rfl ?_ fun fields hfilled => ?_
  · rw [List.forall_mem_cons, List.forall_mem_singleton]
    exact ⟨Entry.accepts_ofNumber (by decide) hnum h hpos,
      Entry.accepts_ofName (by decide) hsize (spells_unitName a.unit) hunit⟩
  · rw [List.forall_mem_cons, List.forall_mem_singleton] at hfilled
    exact Schema.build_amount hfilled.1 hfilled.2

theorem isCalledBy_range {low high : Amount} (hlow : low.IsLegible) (hhigh : high.IsLegible) :
    (Section.range low high).IsCalledBy (Section.range low high).text := by
  have hmin : .must "min" (.subsection [.amount]) ∈ Schema.range.fields := by simp [Schema.range]
  have hmax : .must "max" (.subsection [.amount]) ∈ Schema.range.fields := by simp [Schema.range]
  obtain ⟨v, hv⟩ := Entry.exists_accepts_of_isCalledBy (by decide) hmin (isCalledBy_amount hlow)
    (fun _ => rfl) (by simp [Section.kind])
  obtain ⟨w, hw⟩ := Entry.exists_accepts_of_isCalledBy (by decide) hmax (isCalledBy_amount hhigh)
    (fun _ => rfl) (by simp [Section.kind])
  have htext : (Section.range low high).text = callText "range"
      (([⟨"min", low.text, v, .subsection (.amount low)⟩,
        ⟨"max", high.text, w, .subsection (.amount high)⟩] : List Entry).map Entry.written) := by
    rw [Entry.callText_pair]
    rfl
  rw [htext]
  refine isCalledBy_of_filled (by decide) rfl (by decide) rfl ?_ fun fields hfilled => ?_
  · rw [List.forall_mem_cons, List.forall_mem_singleton]
    exact ⟨hv, hw⟩
  · rw [List.forall_mem_cons, List.forall_mem_singleton] at hfilled
    exact Schema.build_range hfilled.1 hfilled.2

theorem isCalledBy_yearDay {number : Nat} (h : (Section.yearDay number).IsWellFormed) :
    (Section.yearDay number).IsCalledBy (Section.yearDay number).text := by
  obtain ⟨hlower, hupper⟩ : 1 ≤ number ∧ number ≤ 366 := h
  have hfield : .must "number" (.integerWithin (.within 1 366)) ∈ Schema.yearDay.fields := by
    simp [Schema.yearDay]
  have hword : Text.IsWord64 number := by
    unfold Text.IsWord64
    omega
  have hbounds : (Bounds.within 1 366).contains number = true :=
    Bounds.contains_within_iff.2 (by omega)
  have htext : (Section.yearDay number).text =
      callText "day_number" ([Entry.ofNumber "number" number].map Entry.written) := by
    rw [Entry.callText_singleton]
    rfl
  rw [htext]
  refine isCalledBy_of_filled (by decide) rfl (by decide) rfl ?_ fun fields hfilled => ?_
  · rw [List.forall_mem_singleton]
    exact Entry.accepts_ofNumber (by decide) hfield hword hbounds
  · rw [List.forall_mem_singleton] at hfilled
    exact Schema.build_yearDay (hupper.trans_lt (by decide)) hfilled

theorem isCalledBy_literal {l : WrittenLiteral} (h : l.IsLegible) :
    (Section.literal l).IsCalledBy l.text := by
  have htype : .must "type" (.choice Literal.Kind.names) ∈ Schema.literal.fields := by
    simp [Schema.literal]
  have hspecification : .must "specification" .text ∈ Schema.literal.fields := by
    simp [Schema.literal]
  have hkind : l.kind.name ∈ Literal.Kind.names := by cases l.kind <;> decide
  obtain ⟨⟨v, hspells, hv⟩, hread⟩ := h
  have htext : l.text = callText "iso8601"
      ([Entry.ofName "type" l.kind.name, ⟨"specification", l.written, v, .text l.written⟩].map
        Entry.written) := by
    rw [Entry.callText_pair]
    rfl
  rw [htext]
  refine isCalledBy_of_filled (by decide) rfl (by decide) rfl ?_ fun fields hfilled => ?_
  · rw [List.forall_mem_cons, List.forall_mem_singleton]
    have hkey : IsName "specification".toList := by decide
    refine ⟨Entry.accepts_ofName (by decide) htype (spells_kindName l.kind) hkind, hkey, hspells,
      _, hspecification, rfl, fun ctx _ => ?_⟩
    change Reduction.ofExcept ((textOf v).map FieldValue.text) = _
    rw [hv]
    rfl
  · rw [List.forall_mem_cons, List.forall_mem_singleton] at hfilled
    rw [Schema.build_literal hfilled.1 hfilled.2, hread]

theorem isBareToken_durationText (d : Duration) : IsBareToken d.text.toList := by
  refine isBareToken_of_isDigit_or_mem ?_ fun c hc => Duration.isDigit_or_mem_letters hc
  simp only [Duration.letters, List.forall_mem_cons]
  simp [Text.isBlank, isDelimiter]

/-- The letter in front makes it a text. -/
theorem textOf_durationText (d : Duration) : textOf (.ofToken d.text.toList) = .ok d.text := by
  have hsingle := (isBareToken_durationText d).isSingle
  rw [textOf_ofToken hsingle]
  rcases written_ofToken (isBareToken_durationText d).isSolid with hwritten | ⟨n, -, hn⟩
  · rw [String.toList_inj.1 hwritten]
  · have hread := Text.readInteger?_of_readWord64?_eq_some (readWord64?_of_ofToken_eq_integer hn)
    rw [Duration.text, String.toList_ofList] at hread
    cases hread

theorem isLegible_writtenDuration {d : Duration} (hword : d.IsWord32) (hsome : d ≠ {}) :
    WrittenLiteral.IsLegible ⟨d.text, .duration d⟩ where
  isLegibleText := by
    have hne : d.text.toList ≠ [] := by simp [Duration.text]
    exact ⟨_, (isBareToken_durationText d).spells hne, textOf_durationText d⟩
  read_eq_ok := by
    change WrittenLiteral.read .duration d.text = _
    simp only [WrittenLiteral.read, Literal.read, Literal.readDuration_text hword hsome, Except.map]

/-- Every period is the argument of an interval. -/
theorem isCalledBy_every {s simple : Section} {i : Interval} (hcall : s.IsCalledBy text)
    (hsimple : ∀ ctx : Context, s.simplify ctx = pure simple)
    (hkind : simple.kind ∈ [.amount, .duration])
    (hbuild : ∀ f : Fields, f.get? "every" = some (.subsection simple) →
      Schema.interval.build f = .ok (.interval i)) :
    (Section.interval i).IsCalledBy ("interval(every: " ++ text ++ ")") := by
  have hfield : .must "every" (.subsection [.amount, .duration]) ∈ Schema.interval.fields := by
    simp [Schema.interval]
  obtain ⟨v, hv⟩ := Entry.exists_accepts_of_isCalledBy (by decide) hfield hcall hsimple hkind
  have htext : "interval(every: " ++ text ++ ")" = callText "interval"
      (([⟨"every", text, v, .subsection simple⟩] : List Entry).map Entry.written) := by
    rw [Entry.callText_singleton]
    rfl
  rw [htext]
  refine isCalledBy_of_filled (by decide) rfl (by decide) rfl (List.forall_mem_singleton.2 hv)
    fun fields hfilled => hbuild fields ?_
  exact hfilled _ (List.mem_singleton_self _)

theorem intervalText_duration (d : Duration) :
    (Interval.duration d).text =
      "interval(every: " ++ WrittenLiteral.text ⟨d.text, .duration d⟩ ++ ")" := by
  have hassoc (before inside text after : String) :
      before ++ inside ++ text ++ (after ++ after) =
        before ++ (inside ++ text ++ after) ++ after := by
    simp only [String.append_assoc]
  exact hassoc "interval(every: " "iso8601(type: duration, specification: " d.text ")"

theorem isCalledBy_interval {i : Interval} (h : i.IsLegible) (hsome : i ≠ .duration {}) :
    (Section.interval i).IsCalledBy i.text := by
  cases i with
  | amount a =>
    exact isCalledBy_every (isCalledBy_amount h) (fun _ => rfl) (by simp [Section.kind])
      fun _ => Schema.build_interval_amount
  | duration d =>
    have hd : d ≠ {} := fun hnone => hsome (hnone ▸ rfl)
    have hliteral := isCalledBy_literal (isLegible_writtenDuration h hd)
    rw [intervalText_duration]
    exact isCalledBy_every hliteral (fun _ => rfl) (by simp [Section.kind])
      fun _ => Schema.build_interval_duration

end Call

namespace Section

/-- The call that is shown, for a filter without the brackets around it. -/
def callText : Section → String
  | filter f => f.callText
  | s => s.text

/-- The section is shown as a call that makes it. An interval of a duration has some part that is
not zero, or nothing would be written of it. -/
def IsShownAsCall : Section → Prop
  | amount _ | range _ _ | filter _ | weekdays _ | yearDay _ | literal _ => True
  | interval i => i ≠ .duration {}
  | _ => False

theorem isCalledBy_callText {s : Section} (hwell : s.IsWellFormed) (hlegible : s.IsLegible)
    (hshown : s.IsShownAsCall) : s.IsCalledBy s.callText := by
  cases s with
  | amount a => exact isCalledBy_amount hlegible
  | range low high => exact isCalledBy_range hlegible.1 hlegible.2
  | filter f => exact isCalledBy_filter hwell
  | weekdays days => exact isCalledBy_weekdays hlegible
  | yearDay number => exact isCalledBy_yearDay hwell
  | literal l => exact isCalledBy_literal hlegible
  | interval i => exact isCalledBy_interval hlegible hshown
  | _ => cases hshown

end Section

end Almanac

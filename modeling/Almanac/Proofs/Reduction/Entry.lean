import Almanac.Proofs.Expression.Written
import Almanac.Proofs.Reduction.Call
import Almanac.Reduction.Argument

/-!
Calls that make a given section. A call is put together from entries: each is the text of an
argument, the value that it has in an expression, and what the field of its name makes of it.
-/

namespace Almanac

open Expression

/-- The text is a call that makes the section, whatever the clock shows and whatever is drawn. -/
def Section.IsCalledBy (s : Section) (text : String) : Prop :=
  ∃ name args, Spells text.toList (.call name args) ∧
    ∀ ctx : Context, ctx.registry = .defaults → ctx.callSection name args = pure s

/-- An argument as it is written, its value and what comes of it. -/
structure Entry where
  key : String
  text : String
  value : Value
  checked : FieldValue

def Entry.argument (e : Entry) : String × Value :=
  (e.key, e.value)

/-- With its name in front. -/
def Entry.written (e : Entry) : String :=
  e.key ++ ": " ++ e.text

theorem Entry.spells_written {e : Entry} (hkey : IsName e.key.toList)
    (h : Spells e.text.toList (.value e.value)) :
    Spells e.written.toList (.argument e.argument.1 e.argument.2) := by
  have hspells := spells_argument hkey h
  rw [String.ofList_toList] at hspells
  simpa [written, argument] using hspells

theorem Entry.callText_singleton (name : String) (e : Entry) :
    callText name ([e].map written) = name ++ "(" ++ e.key ++ ": " ++ e.text ++ ")" := by
  simp [callText, written, String.append_assoc]

theorem Entry.callText_pair (name : String) (e other : Entry) :
    callText name ([e, other].map written) = name ++ "(" ++ e.key ++ ": " ++ e.text ++
      (", " ++ other.key ++ ": ") ++ other.text ++ ")" := by
  simp [callText, written, String.append_assoc]

theorem Entry.callText_triple (name : String) (e other more : Entry) :
    callText name ([e, other, more].map written) = name ++ "(" ++ e.key ++ ": " ++ e.text ++
      (", " ++ other.key ++ ": ") ++ other.text ++ (", " ++ more.key ++ ": ") ++ more.text ++
        ")" := by
  simp [callText, written, String.append_assoc]

/-- A field of that name makes of the entry what it is said to make. -/
structure Schema.Accepts (schema : Schema) (e : Entry) : Prop where
  isName : IsName e.key.toList
  spells : Spells e.text.toList (.value e.value)
  exists_field : ∃ field ∈ schema.fields, field.name = e.key ∧
    ∀ ctx : Context, ctx.registry = .defaults →
      field.kind.check ctx ⟨e.value, ctx.named? e.value⟩ = pure e.checked

/-- On one clock, a field of that name makes of the entry what it is said to make. -/
structure Schema.AcceptsIn (schema : Schema) (ctx : Context) (e : Entry) : Prop where
  isName : IsName e.key.toList
  spells : Spells e.text.toList (.value e.value)
  exists_field : ∃ field ∈ schema.fields, field.name = e.key ∧
    field.kind.check ctx ⟨e.value, ctx.named? e.value⟩ = pure e.checked

theorem Schema.Accepts.acceptsIn {schema : Schema} {e : Entry} (h : schema.Accepts e)
    {ctx : Context} (hregistry : ctx.registry = .defaults) : schema.AcceptsIn ctx e := by
  obtain ⟨field, hfield, hname, hcheck⟩ := h.exists_field
  exact ⟨h.isName, h.spells, field, hfield, hname, hcheck ctx hregistry⟩

variable {ctx : Context} {schema : Schema} {entries : List Entry}

/-- What a field makes of its argument among all of them. -/
theorem Field.check_arguments (field : Field) (args : List (String × Value)) :
    field.check ctx (ctx.arguments args) =
      match Keyed.get? args field.name with
      | some v => some <$> field.kind.check ctx ⟨v, ctx.named? v⟩
      | none => if field.required then .fail .missing else pure none := by
  unfold check
  rw [Context.get?_arguments]
  cases Keyed.get? args field.name <;> rfl

theorem spells_entries {name : String} (hname : IsName name.toList)
    (hentries : ∀ e ∈ entries, IsName e.key.toList ∧ Spells e.text.toList (.value e.value))
    (hkeys : (entries.map Entry.key).Nodup) :
    Spells (callText name (entries.map Entry.written)).toList
      (.call name (Keyed.ofList (entries.map Entry.argument))) := by
  have hspells := spells_callText Entry.written Entry.argument hname hkeys fun e he =>
    Entry.spells_written (hentries e he).1 (hentries e he).2
  rwa [String.ofList_toList] at hspells

/-- What a field makes of the entry of its name, if there is one. -/
def checkedIn? (entries : List Entry) (field : Field) : Option FieldValue :=
  (entries.find? (·.key = field.name)).map Entry.checked

theorem exists_of_checkedIn?_eq_some {field : Field} {v : FieldValue}
    (h : checkedIn? entries field = some v) :
    ∃ e ∈ entries, e.key = field.name ∧ e.checked = v := by
  obtain ⟨e, hfind, hchecked⟩ := Option.map_eq_some_iff.1 h
  exact ⟨e, List.mem_of_find?_eq_some hfind, by simpa using List.find?_some hfind, hchecked⟩

theorem checkedIn?_eq_none_iff {field : Field} :
    checkedIn? entries field = none ↔ field.name ∉ entries.map Entry.key := by
  rw [checkedIn?, Option.map_eq_none_iff, List.find?_eq_none]
  simp

section Checks

variable (hdistinct : schema.IsDistinct) (hentries : ∀ e ∈ entries, schema.AcceptsIn ctx e)
  (hkeys : (entries.map Entry.key).Nodup)

include hkeys in
theorem get?_ofList_entries (key : String) :
    Keyed.get? (Keyed.ofList (entries.map Entry.argument)) key =
      Keyed.get? (entries.map Entry.argument) key := by
  refine Keyed.get?_ofList ?_ key
  rwa [List.map_map]

include hdistinct hentries hkeys in
theorem check_eq_checked {e : Entry} (he : e ∈ entries) {field : Field}
    (hfield : field ∈ schema.fields) (hname : field.name = e.key) :
    field.check ctx (ctx.arguments (Keyed.ofList (entries.map Entry.argument))) =
      pure (some e.checked) := by
  obtain ⟨other, hother, hotherName, hcheck⟩ := (hentries e he).exists_field
  have hsame : other = field :=
    List.inj_on_of_nodup_map hdistinct hother hfield (hotherName.trans hname.symm)
  have hargument : Keyed.get? (entries.map Entry.argument) field.name = some e.value := by
    rw [hname]
    refine (Keyed.get?_eq_some_iff ?_).2 (List.mem_map_of_mem (f := Entry.argument) he)
    rwa [List.map_map]
  rw [Field.check_arguments, get?_ofList_entries hkeys, hargument]
  change some <$> field.kind.check ctx ⟨e.value, ctx.named? e.value⟩ = _
  rw [← hsame, hcheck, map_pure]

include hkeys in
theorem check_eq_none {field : Field} (hname : field.name ∉ entries.map Entry.key)
    (hoptional : field.required = false) :
    field.check ctx (ctx.arguments (Keyed.ofList (entries.map Entry.argument))) = pure none := by
  have hargument : Keyed.get? (entries.map Entry.argument) field.name = none := by
    rw [Keyed.get?_eq_none_iff, List.map_map]
    exact hname
  rw [Field.check_arguments, get?_ofList_entries hkeys, hargument]
  simp [hoptional]

include hdistinct hentries hkeys in
theorem check_eq_checkedIn? {field : Field} (hfield : field ∈ schema.fields)
    (hrequired : field.required = true → field.name ∈ entries.map Entry.key) :
    field.check ctx (ctx.arguments (Keyed.ofList (entries.map Entry.argument))) =
      pure (checkedIn? entries field) := by
  cases hchecked : checkedIn? entries field with
  | some v =>
    obtain ⟨e, he, hkey, rfl⟩ := exists_of_checkedIn?_eq_some hchecked
    exact check_eq_checked hdistinct hentries hkeys he hfield hkey.symm
  | none =>
    have hleft := checkedIn?_eq_none_iff.1 hchecked
    exact check_eq_none hkeys hleft (Bool.eq_false_iff.2 fun hmust => hleft (hrequired hmust))

include hdistinct hentries hkeys in
/-- Entries that the fields of a schema accept, one for each field that has to be filled, make the
section that the schema builds of what the fields have made of them. -/
theorem callSection_of_acceptsIn {name : String} {s : Section}
    (hresolve : ctx.registry.resolve? name = some schema)
    (hrequired : ∀ field ∈ schema.fields, field.required = true →
      field.name ∈ entries.map Entry.key)
    (hbuild : ∀ f : Fields, (∀ e ∈ entries, f.get? e.key = some e.checked) →
      (∀ key ∉ entries.map Entry.key, f.get? key = none) → schema.build f = .ok s) :
    ctx.callSection name (Keyed.ofList (entries.map Entry.argument)) = pure s := by
  have hchecked (field : Field) (hfield : field ∈ schema.fields) :=
    check_eq_checkedIn? hdistinct hentries hkeys hfield (hrequired field hfield)
  unfold Context.callSection Context.call
  rw [hresolve]
  refine Schema.apply_eq_pure ?known hchecked (hbuild _ (fun e he => ?filled) fun key hkey => ?left)
  case known =>
    simp only [Context.arguments_eq_map, List.forall_mem_map, Context.fst_argument]
    intro argument hargument
    obtain ⟨e, he, rfl⟩ := List.mem_map.1 (Keyed.mem_of_mem_ofList hargument)
    obtain ⟨field, hfield, hkey, -⟩ := (hentries e he).exists_field
    exact List.find?_isSome.2 ⟨field, hfield, decide_eq_true hkey⟩
  case filled =>
    obtain ⟨field, hfield, hkey, -⟩ := (hentries e he).exists_field
    refine get?_fieldValues (v := some e.checked) ?_ (List.mem_map.2 ⟨field, hfield, ?_⟩)
    · rw [List.map_map]
      exact hdistinct
    · have hsame := (hchecked field hfield).symm.trans
        (check_eq_checked hdistinct hentries hkeys he hfield hkey)
      rw [hkey, Reduction.eq_of_pure_eq hsame]
  case left =>
    refine Option.eq_none_iff_forall_ne_some.2 fun v hv => hkey ?_
    obtain ⟨field, -, heq⟩ := List.mem_map.1 (mem_of_get?_fieldValues hv)
    rw [Prod.mk.injEq, Except.ok.injEq] at heq
    obtain ⟨rfl, heq⟩ := heq
    obtain ⟨e, he, hname, -⟩ := exists_of_checkedIn?_eq_some heq
    exact hname ▸ List.mem_map_of_mem he

end Checks

/-- What is accepted on every clock makes the section on every clock. -/
theorem isCalledBy_of_accepts {name : String} {s : Section} (hname : IsName name.toList)
    (hresolve : Registry.defaults.resolve? name = some schema) (hdistinct : schema.IsDistinct)
    (hentries : ∀ e ∈ entries, schema.Accepts e) (hkeys : (entries.map Entry.key).Nodup)
    (hrequired : ∀ field ∈ schema.fields, field.required = true →
      field.name ∈ entries.map Entry.key)
    (hbuild : ∀ f : Fields, (∀ e ∈ entries, f.get? e.key = some e.checked) →
      (∀ key ∉ entries.map Entry.key, f.get? key = none) → schema.build f = .ok s) :
    s.IsCalledBy (callText name (entries.map Entry.written)) := by
  have hspells := spells_entries hname
    (fun e he => ⟨(hentries e he).isName, (hentries e he).spells⟩) hkeys
  refine ⟨name, _, hspells, fun ctx hregistry => ?_⟩
  have hentriesIn : ∀ e ∈ entries, schema.AcceptsIn ctx e :=
    fun e he => (hentries e he).acceptsIn hregistry
  rw [← hregistry] at hresolve
  exact callSection_of_acceptsIn hdistinct hentriesIn hkeys hresolve hrequired hbuild

/-- A call with an entry for every field. -/
theorem isCalledBy_of_filled {name : String} {s : Section} (hname : IsName name.toList)
    (hresolve : Registry.defaults.resolve? name = some schema) (hdistinct : schema.IsDistinct)
    (hkeys : entries.map Entry.key = schema.fields.map Field.name)
    (hentries : ∀ e ∈ entries, schema.Accepts e)
    (hbuild : ∀ f : Fields, (∀ e ∈ entries, f.get? e.key = some e.checked) →
      schema.build f = .ok s) :
    s.IsCalledBy (callText name (entries.map Entry.written)) := by
  refine isCalledBy_of_accepts hname hresolve hdistinct hentries ?_ (fun field hfield _ => ?_)
    fun f hfilled _ => hbuild f hfilled
  · rw [hkeys]
    exact hdistinct
  · rw [hkeys]
    exact List.mem_map_of_mem hfield

end Almanac

import Almanac.Proofs.Literal.Duration
import Almanac.Proofs.Period.Conversion
import Almanac.Proofs.Reduction.Literal
import Almanac.Proofs.Reduction.NormalForm
import Almanac.Proofs.Schema.Build

/-!
Sections whose text can be read. Numbers fit into the words that are read, literals are kept as they
can be written again, and days of the week are never none. By induction on the grammar, all sections
that the parts of a text stand for are legible.
-/

namespace Almanac

open Calendar Period Occurrence Expression Reduction

/-- Written as a value of its own, the text is taken as that text. -/
def IsLegibleText (text : String) : Prop :=
  ∃ v, Spells text.toList (.value v) ∧ textOf v = .ok text

def Period.Amount.IsLegible (a : Amount) : Prop :=
  Text.IsWord64 a.number

def Period.Interval.IsLegible : Interval → Prop
  | amount a => a.IsLegible
  | duration d => d.IsWord32

/-- The literal is what its text is read as. -/
structure WrittenLiteral.IsLegible (l : WrittenLiteral) : Prop where
  isLegibleText : IsLegibleText l.written
  read_eq_ok : WrittenLiteral.read l.kind l.written = .ok l

def Section.IsLegible : Section → Prop
  | amount a => a.IsLegible
  | range low high => low.IsLegible ∧ high.IsLegible
  | interval i => i.IsLegible
  | intervals alternatives => ∀ i ∈ alternatives, i.IsLegible
  | duration d => d.IsWord32
  | weekdays days => days.isEmpty = false
  | literal l => l.IsLegible
  | _ => True

variable {ctx : Context}

theorem nearestNatural_le {q : ℚ} (h : q ≤ 2 ^ (63 : ℤ)) : nearestNatural q ≤ 2 ^ 63 := by
  have hfloor : (q + 1 / 2).floor ≤ 2 ^ 63 := by
    refine Int.lt_add_one_iff.1 (Int.not_le.1 fun hle => ?_)
    have hle := Rat.le_floor_iff.1 hle
    norm_num at h hle
    linarith
  refine (Nat.min_le_left _ _).trans ?_
  omega

/-- What is drawn is less than the upper bound, and the bound is not more than the first number
beyond 63 bits. -/
theorem Context.isLegible_of_drawAmount {low high a : Amount}
    (h : (ctx.drawAmount low high).CanReturn a) : a.IsLegible := by
  unfold drawAmount at h
  dsimp only at h
  split at h
  case isTrue hlt =>
    obtain ⟨n, hdraw, rfl⟩ := exists_of_canReturn_map h
    have hdrawn := lt_of_canReturn_draw hlt hdraw
    have hhigh : ctx.numberIn (low.unit.finer high.unit) high ≤ 2 ^ 63 :=
      nearestNatural_le (convertNatural_le ctx.now _ _ (Nat.min_le_right _ _))
    unfold Amount.IsLegible Text.IsWord64
    dsimp only
    omega
  case isFalse => exact absurd h not_canReturn_fail

namespace Section

variable {s simple : Section}

theorem IsLegible.of_kind (h : s.kind ∉
    [.amount, .range, .interval, .intervals, .duration, .weekdays, .literal]) : s.IsLegible := by
  cases s with
  | amount | range | interval | intervals | duration | weekdays | literal =>
    exact absurd (by simp [kind]) h
  | _ => trivial

theorem isWord32_of_value_eq_duration {l : WrittenLiteral} {d : Duration} (hl : l.IsLegible)
    (hvalue : l.value = .duration d) : d.IsWord32 := by
  have hread := hl.read_eq_ok
  unfold WrittenLiteral.read WrittenLiteral.kind at hread
  rw [hvalue] at hread
  cases hliteral : Literal.read .duration l.written.toList with
  | error e =>
    rw [Literal.Value.kind, hliteral] at hread
    cases hread
  | ok v =>
    rw [Literal.Value.kind, hliteral] at hread
    have hsame : v = l.value := congrArg WrittenLiteral.value (Except.ok.inj hread)
    obtain ⟨read, hread, hduration⟩ := exists_of_map_eq_ok hliteral
    rw [hsame, hvalue] at hduration
    cases hduration
    exact Literal.isWord32_of_readDuration_eq_ok hread

theorem IsLegible.simplify (hs : s.IsLegible) (h : (s.simplify ctx).CanReturn simple) :
    simple.IsLegible := by
  cases s with
  | range low high =>
    obtain ⟨a, ha, rfl⟩ := exists_of_canReturn_map h
    exact Context.isLegible_of_drawAmount ha
  | literal l =>
    rcases expand_eq_ok (canReturn_ofExcept_iff.1 h) with ⟨_, -, rfl⟩ | ⟨_, -, rfl⟩ | ⟨_, -, rfl⟩ |
      ⟨d, hvalue, rfl⟩ | ⟨_, _, -, -, rfl⟩
    case inr.inr.inr.inl => exact isWord32_of_value_eq_duration hs hvalue
    all_goals trivial
  | epoch seconds =>
    obtain ⟨_, _, rfl⟩ := canReturn_simplify_epoch h
    trivial
  | now | sunrise | sunset | between | yearDay | filtered | weekdays =>
    cases canReturn_pure_iff.1 h
    trivial
  | _ =>
    cases canReturn_pure_iff.1 h
    exact hs

theorem IsLegible.of_alternatives? (hs : s.IsLegible) {alternatives : List Interval}
    (h : s.alternatives? = some alternatives) : ∀ i ∈ alternatives, i.IsLegible := by
  cases s with
  | interval i =>
    cases h
    exact List.forall_mem_singleton.2 hs
  | intervals is =>
    cases h
    exact hs
  | _ => cases h

theorem IsLegible.join {joiner : Joiner} {left right joined : Section} (hleft : left.IsLegible)
    (hright : right.IsLegible) (h : join joiner left right = .ok joined) : joined.IsLegible := by
  cases joiner with
  | and =>
    have hkind := kind_of_and_eq_ok h
    refine IsLegible.of_kind fun hmem => ?_
    simp only [List.mem_cons, List.not_mem_nil, or_false] at hkind hmem
    rcases hkind with hkind | hkind | hkind | hkind | hkind <;> simp [hkind] at hmem
  | or =>
    rcases or_eq_ok h with ⟨is, further, his, hfurther, rfl⟩ | ⟨_, _, -, -, rfl⟩ |
      ⟨_, _, -, -, -, rfl⟩
    · exact List.forall_mem_append.2 ⟨hleft.of_alternatives? his, hright.of_alternatives? hfurther⟩
    · trivial
    · trivial

end Section

/-- The value is written as itself, and a section that it names is legible. -/
structure Argument.IsLegible (a : Argument) : Prop where
  isWord64 : ∀ n, a.value = .integer n → Text.IsWord64 n
  spells : Spells a.value.written.toList (.value a.value)
  section_isLegible : ∀ x s, a.named = some x → x.CanReturn s → s.IsLegible

def FieldValue.IsLegible : FieldValue → Prop
  | integer n => Text.IsWord64 n
  | text s => IsLegibleText s
  | subsection s => s.IsLegible
  | _ => True

variable {a : Argument} {args : List (String × Argument)}

theorem Argument.IsLegible.isWord64_of_integerOf_eq_ok (ha : a.IsLegible) {n : Int}
    (h : integerOf a.value = .ok n) : Text.IsWord64 n := by
  unfold integerOf at h
  split at h
  case h_1 n hvalue =>
    cases h
    exact ha.isWord64 n hvalue
  case h_2 =>
    split at h
    case h_1 n hn =>
      cases h
      exact Text.isWord64_of_readWord64?_eq_some hn
    case h_2 => cases h
  case h_3 => cases h

theorem Argument.IsLegible.isLegibleText (ha : a.IsLegible) {s : String}
    (h : textOf a.value = .ok s) : IsLegibleText s := by
  have hwritten : a.value.written = s := by
    cases hvalue : a.value with
    | text s | integer n | boolean b =>
      rw [hvalue] at h
      cases h
      rfl
    | list items | call name args | given s =>
      rw [hvalue] at h
      cases h
  exact ⟨a.value, hwritten ▸ ha.spells, h⟩

/-- What a field makes of a legible argument is legible. -/
theorem FieldKind.isLegible_of_canReturn_check {kind : FieldKind} {v : FieldValue}
    (ha : a.IsLegible) (h : (kind.check ctx a).CanReturn v) : v.IsLegible := by
  cases kind with
  | integer =>
    obtain ⟨n, hn, rfl⟩ := exists_of_map_eq_ok (canReturn_ofExcept_iff.1 h)
    exact ha.isWord64_of_integerOf_eq_ok hn
  | integerWithin bounds =>
    obtain ⟨_, hn, rfl⟩ := exists_of_map_eq_ok (canReturn_ofExcept_iff.1 h)
    obtain ⟨n, hn, hcheck⟩ := exists_of_bind_eq_ok hn
    obtain ⟨rfl, -⟩ := checkBounds_eq_ok hcheck
    exact ha.isWord64_of_integerOf_eq_ok hn
  | text =>
    obtain ⟨s, hs, rfl⟩ := exists_of_map_eq_ok (canReturn_ofExcept_iff.1 h)
    exact ha.isLegibleText hs
  | choice options =>
    obtain ⟨_, hs, rfl⟩ := exists_of_map_eq_ok (canReturn_ofExcept_iff.1 h)
    obtain ⟨s, hs, hcheck⟩ := exists_of_bind_eq_ok hs
    obtain ⟨rfl, -⟩ := checkChoice_eq_ok hcheck
    exact ha.isLegibleText hs
  | subsection kinds =>
    obtain ⟨named, hnamed, h⟩ := exists_of_canReturn_bind h
    obtain ⟨simple, hsimple, h⟩ := exists_of_canReturn_bind h
    obtain ⟨_, hkind, rfl⟩ := exists_of_map_eq_ok (canReturn_ofExcept_iff.1 h)
    obtain ⟨rfl, -⟩ := checkKind_eq_ok hkind
    obtain ⟨reduction, hreduction, hreturn⟩ := Argument.exists_of_canReturn_toSection hnamed
    have hlegible := ha.section_isLegible reduction named hreduction hreturn
    exact hlegible.simplify (canReturn_of_mapError hsimple)
  | number | integersWithin bounds | choices options =>
    obtain ⟨_, -, rfl⟩ := exists_of_map_eq_ok (canReturn_ofExcept_iff.1 h)
    trivial
  | bound forever =>
    obtain ⟨_, -, rfl⟩ := exists_of_canReturn_map h
    trivial

namespace Schema

variable {f : Fields} {s : Section} (hf : ∀ key v, f.get? key = some v → v.IsLegible)

include hf

theorem isLegible_amount (h : amount.build f = .ok s) : s.IsLegible := by
  obtain ⟨n, unit, hnum, hpos, rfl⟩ := build_amount_eq_ok h
  change Text.IsWord64 n.toNat
  rw [Int.toNat_of_nonneg hpos]
  exact hf _ _ hnum

theorem isLegible_range (h : range.build f = .ok s) : s.IsLegible := by
  obtain ⟨low, high, hmin, hmax, rfl⟩ := build_range_eq_ok h
  exact ⟨hf _ _ hmin, hf _ _ hmax⟩

theorem isLegible_interval (h : interval.build f = .ok s) : s.IsLegible := by
  rcases build_interval_eq_ok h with ⟨a, hevery, rfl⟩ | ⟨d, hevery, rfl⟩
  · exact hf _ _ hevery
  · exact hf _ _ hevery

theorem isLegible_literal (h : literal.build f = .ok s) : s.IsLegible := by
  obtain ⟨l, -, hspecification, hread, rfl⟩ := build_literal_eq_ok h
  exact ⟨hf _ _ hspecification, hread⟩

omit hf

theorem isLegible_weekdays (h : weekdays.build f = .ok s) : s.IsLegible := by
  obtain ⟨days, hsome, rfl⟩ := build_weekdays_eq_ok h
  exact hsome

theorem Makes.isLegible {schema : Schema} {kind : Section.Kind} (hmakes : schema.Makes kind)
    (hkind : kind ∉ [.amount, .range, .interval, .intervals, .duration, .weekdays, .literal])
    (h : schema.build f = .ok s) : s.IsLegible :=
  Section.IsLegible.of_kind (hmakes f s h ▸ hkind)

include hf

theorem isLegible_of_mem_defaults {entry : String × Schema} (hentry : entry ∈ defaults)
    (h : entry.2.build f = .ok s) : s.IsLegible := by
  simp only [defaults, List.mem_cons, List.not_mem_nil, or_false] at hentry
  rcases hentry with rfl | rfl | rfl | rfl | rfl | rfl | rfl | rfl | rfl | rfl | rfl | rfl | rfl |
    rfl | rfl | rfl
  exacts [makes_recurrence.isLegible (by decide) h, makes_filter.isLegible (by decide) h,
    (makes_constant _).isLegible (by decide) h, (makes_constant _).isLegible (by decide) h,
    (makes_constant _).isLegible (by decide) h, (makes_constant _).isLegible (by decide) h,
    makes_epoch.isLegible (by decide) h, isLegible_amount hf h, isLegible_range hf h,
    isLegible_interval hf h, makes_between.isLegible (by decide) h, isLegible_weekdays h,
    makes_yearDay.isLegible (by decide) h, makes_time.isLegible (by decide) h,
    makes_date.isLegible (by decide) h, isLegible_literal hf h]

end Schema

theorem Context.isLegible_of_canReturn_call (hregistry : ctx.registry = .defaults) {name : String}
    {s : Section} (hargs : ∀ entry ∈ args, entry.2.IsLegible)
    (h : (ctx.call name args).CanReturn s) : s.IsLegible := by
  obtain ⟨schema, g, outcomes, g', hmem, hturns, hbuild⟩ :=
    Context.exists_of_canReturn_call hregistry h
  refine Schema.isLegible_of_mem_defaults (fun key v hv => ?_) hmem hbuild
  obtain ⟨field, -, -, hcheck⟩ := hturns.exists_of_mem (mem_of_get?_fieldValues hv)
  obtain ⟨a, ha, hcheck⟩ := Field.exists_of_canReturn_check hcheck
  exact FieldKind.isLegible_of_canReturn_check (hargs _ (Keyed.mem_of_get?_eq_some ha)) hcheck

namespace Expression

/-- The sections that come from the phrase are legible. -/
def Phrase.IsLegible (ctx : Context) : Phrase → Prop
  | .call name args => ∀ s, (ctx.callSection name args).CanReturn s → s.IsLegible
  | .arguments args => ∀ argument ∈ args, (ctx.argument argument).2.IsLegible
  | .argument key v => (ctx.argument (key, v)).2.IsLegible
  | .value v => Argument.IsLegible ⟨v, ctx.named? v⟩
  | .term _ tree | .chain _ tree => ∀ s, (tree.reduce ctx).CanReturn s → s.IsLegible

theorem isLegible_call (hregistry : ctx.registry = .defaults) {args : List (String × Value)}
    (hargs : (Phrase.arguments args).IsLegible ctx) (name : String) :
    (Phrase.call name (Keyed.ofList args)).IsLegible ctx := by
  intro s hs
  exact Context.isLegible_of_canReturn_call hregistry (Context.forall_mem_arguments_ofList hargs) hs

/-- Every phrase of the grammar is legible where the names are those of the defaults. -/
theorem isLegible_of_spells (hregistry : ctx.registry = .defaults) {w : List Char} {phrase : Phrase}
    (h : Spells w phrase) : phrase.IsLegible ctx := by
  induction h with
  | emptyCall hname hbefore hinside =>
    have hnone : (Phrase.arguments []).IsLegible ctx := fun _ hmem => nomatch hmem
    exact isLegible_call hregistry hnone _
  | call hname hbefore hfirst hargs hlast hdistinct ih => exact isLegible_call hregistry ih _
  | firstArgument h ih => exact List.forall_mem_singleton.2 ih
  | furtherArgument hargs hbefore hafter h ihargs ih =>
    exact List.forall_mem_append.2 ⟨ihargs, List.forall_mem_singleton.2 ih⟩
  | argument hkey hbefore hafter h ih =>
    rw [Phrase.IsLegible, Context.argument]
    exact ih
  | nested h ih =>
    refine ⟨fun n hn => ?_, isWritten_of_spells (.nested h), fun x s hx hs => ?_⟩
    · cases hn
    · rw [Context.named?, Option.some.injEq] at hx
      subst hx
      exact ih s hs
  | token hrun hsome =>
    refine ⟨fun n hn => ?_, isWritten_of_spells (.token hrun hsome), fun x s hx _ => ?_⟩
    · exact Text.isWord64_of_readWord64?_eq_some (readWord64?_of_ofToken_eq_integer hn)
    · rw [named?_ofToken] at hx
      cases hx
  | term h ih =>
    intro s hs
    obtain ⟨made, hmade, hs⟩ := exists_of_canReturn_bind hs
    exact (ih made hmade).simplify hs
  | parentheses hbefore h hafter ih => exact ih
  | single h ih => exact ih
  | join hleft hbefore hafter hright ihleft ihright =>
    intro s hs
    obtain ⟨_, _, joined, hreducedLeft, hreducedRight, hjoined, hsimple⟩ :=
      Tree.exists_of_canReturn_reduce_join hs
    have hlegible := (ihleft _ hreducedLeft).join (ihright _ hreducedRight) hjoined
    exact hlegible.simplify hsimple

end Expression

end Almanac

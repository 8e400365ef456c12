import Almanac.Proofs.Calendar.Instant
import Almanac.Proofs.Literal.Digits
import Almanac.Proofs.Reduction.Entry
import Almanac.Reduction.Reduce

/-!
Literals that stand in expressions as bare tokens. A token that is a number forgets how it was
written, and a literal with it: in digits alone, a date or a time that begins with a zero does not
come through. Every other literal does.
-/

namespace Almanac

open Expression Reduction

variable {ctx : Context} {kind : Literal.Kind}

namespace Expression

/-- The whole text is one bare token, and no list. -/
structure IsBareToken (token : List Char) : Prop where
  isSolid : ∀ c ∈ token, Text.isBlank c = false
  isRun : ∀ c ∈ token, isDelimiter c = false
  isSingle : ';' ∉ token

instance (token : List Char) : Decidable (IsBareToken token) :=
  decidable_of_iff ((token.all fun c => !Text.isBlank c && !isDelimiter c) = true ∧ ';' ∉ token) (by
    simp only [List.all_eq_true, Bool.and_eq_true, Bool.not_eq_true']
    exact ⟨fun ⟨h, hsingle⟩ => ⟨fun c hc => (h c hc).1, fun c hc => (h c hc).2, hsingle⟩,
      fun h => ⟨fun c hc => ⟨h.isSolid c hc, h.isRun c hc⟩, h.isSingle⟩⟩)

variable {token : List Char}

/-- Digits, and signs that mean nothing in an expression. -/
theorem isBareToken_of_isDigit_or_mem {signs : List Char}
    (hsigns : ∀ c ∈ signs, Text.isBlank c = false ∧ isDelimiter c = false ∧ c ≠ ';')
    (h : ∀ c ∈ token, c.isDigit = true ∨ c ∈ signs) : IsBareToken token := by
  have hchars : ∀ c ∈ token, Text.isBlank c = false ∧ isDelimiter c = false ∧ c ≠ ';' := by
    intro c hc
    rcases h c hc with hdigit | hsign
    · refine ⟨Text.isBlank_eq_false_of_isDigit hdigit, isDelimiter_eq_false_of_isDigit hdigit, ?_⟩
      rintro rfl
      cases hdigit
    · exact hsigns c hsign
  exact ⟨fun c hc => (hchars c hc).1, fun c hc => (hchars c hc).2.1,
    fun hc => (hchars _ hc).2.2 rfl⟩

/-- The text that fields without other wants make of a token. -/
theorem textOf_ofToken (hsingle : ';' ∉ token) :
    textOf (.ofToken token) = .ok (Value.ofToken token).written := by
  unfold Value.ofToken
  rw [if_neg hsingle]
  split
  · rfl
  · split
    · rfl
    · split <;> rfl

theorem readWord64?_of_ofToken_eq_integer {n : Int} (h : Value.ofToken token = .integer n) :
    Text.readWord64? token = some n := by
  unfold Value.ofToken at h
  split at h
  · cases h
  · split at h
    · cases h
    · split at h
      · cases h
      · split at h <;> cases h
        assumption

/-- Digits that are not too many are a number. -/
theorem ofToken_of_isDigit (hsome : token ≠ []) (hdigits : ∀ c ∈ token, c.isDigit = true)
    (hshort : token.length ≤ 10) :
    Value.ofToken token = .integer (Text.valueOfDigits token : Nat) := by
  have hlt : Text.valueOfDigits token < 10 ^ 10 :=
    Nat.lt_of_lt_of_le (Text.valueOfDigits_lt hdigits) (Nat.pow_le_pow_right (by decide) hshort)
  have hword : Text.IsWord64 (Text.valueOfDigits token : Nat) := by
    unfold Text.IsWord64
    omega
  have hread : Text.readWord64? token = some (Text.valueOfDigits token : Int) := by
    unfold Text.readWord64?
    rw [Text.readInteger?_eq_valueOfDigits hsome hdigits]
    simp [hword]
  exact ofToken_eq_integer (fun c hc => Or.inr (hdigits c hc)) hread

theorem ofToken_kindName (kind : Literal.Kind) :
    Value.ofToken kind.name.toList = .text kind.name := by
  cases kind <;> rfl

theorem IsBareToken.spells (hbare : IsBareToken token) (hsome : token ≠ []) :
    Spells token (.value (.ofToken token)) :=
  spells_token hsome hbare.isSolid hbare.isRun

theorem spells_kindName (kind : Literal.Kind) :
    Spells kind.name.toList (.value (.text kind.name)) := by
  have hbare : IsBareToken kind.name.toList := by cases kind <;> decide
  rw [← ofToken_kindName]
  exact hbare.spells (by cases kind <;> decide)

theorem read_literalCall {written : String} (hsome : written.toList ≠ [])
    (hbare : IsBareToken written.toList) (kind : Literal.Kind) :
    ∃ span, read ("iso8601(type: " ++ kind.name ++ ", specification: " ++ written ++ ")") =
      .ok (.call "iso8601"
        [("specification", .ofToken written.toList), ("type", .text kind.name)] span) := by
  let kindEntry : Entry := ⟨"type", kind.name, .text kind.name, .text kind.name⟩
  let writtenEntry : Entry :=
    ⟨"specification", written, .ofToken written.toList, .text written⟩
  have hname : IsName "iso8601".toList := by decide
  have hkind : IsName "type".toList := by decide
  have hwritten : IsName "specification".toList := by decide
  have hentries : ∀ e ∈ [kindEntry, writtenEntry],
      Spells e.written.toList (.argument e.argument.1 e.argument.2) := by
    rw [List.forall_mem_cons, List.forall_mem_singleton]
    exact ⟨Entry.spells_written hkind (spells_kindName kind),
      Entry.spells_written hwritten (hbare.spells hsome)⟩
  have hdistinct : ([kindEntry, writtenEntry].map fun e => e.argument.1).Nodup := by
    change ["type", "specification"].Nodup
    decide
  have hspells := spells_callText Entry.written Entry.argument hname hdistinct hentries
  have htext : "iso8601(type: " ++ kind.name ++ ", specification: " ++ written ++ ")" =
      callText (String.ofList "iso8601".toList) ([kindEntry, writtenEntry].map Entry.written) := by
    rw [Entry.callText_pair]
    rfl
  -- The arguments are filed by their names.
  have hbefore : "specification" < "type" := by decide
  have hfiled (a b : Value) : Keyed.ofList [("type", a), ("specification", b)] =
      [("specification", b), ("type", a)] := by
    simp only [Keyed.ofList, List.foldl_cons, List.foldl_nil, Keyed.insert, if_pos hbefore]
  rw [htext, ← hfiled]
  exact ⟨_, read_of_spells (.single (.term hspells))⟩

end Expression

section Call

variable {written : String}

theorem Schema.build_literal {f : Fields} (htype : f.get? "type" = some (.text kind.name))
    (hspecification : f.get? "specification" = some (.text written)) :
    Schema.literal.build f =
      match WrittenLiteral.read kind written with
      | .ok l => .ok (.literal l)
      | .error e => refuse "specification" (.nested e) := by
  have hname : require f FieldValue.text? "type" = .ok kind.name := by
    unfold require Fields.view?
    rw [htype]
    rfl
  have hwritten : require f FieldValue.text? "specification" = .ok written := by
    unfold require Fields.view?
    rw [hspecification]
    rfl
  cases hread : WrittenLiteral.read kind written <;>
    simp only [Schema.literal, hname, hwritten, bind, Except.bind, Literal.Kind.ofName?_name, hread]

/-- A call of the literal section reads the text of its field, and fails if that is no literal. -/
theorem Schema.apply_literal {a b : Argument} (ha : textOf a.value = .ok written)
    (hb : textOf b.value = .ok kind.name) :
    Schema.literal.apply ctx "iso8601" [("specification", a), ("type", b)] =
      match WrittenLiteral.read kind written with
      | .ok l => pure (.literal l)
      | .error e => fail (.badArguments "iso8601" [("specification", .nested e)]) := by
  have hchoice : checkChoice Literal.Kind.names kind.name = .ok kind.name := by
    cases kind <;> rfl
  have htype : Field.check ctx [("specification", a), ("type", b)]
      (.must "type" (.choice Literal.Kind.names)) = pure (some (.text kind.name)) := by
    change some <$> ofExcept (((textOf b.value).bind (checkChoice Literal.Kind.names)).map
      FieldValue.text) = _
    rw [hb]
    change some <$> ofExcept ((checkChoice Literal.Kind.names kind.name).map FieldValue.text) = _
    rw [hchoice]
    rfl
  have hspecification : Field.check ctx [("specification", a), ("type", b)]
      (.must "specification" .text) = pure (some (.text written)) := by
    change some <$> ofExcept ((textOf a.value).map FieldValue.text) = _
    rw [ha]
    rfl
  let outcomes : List FieldOutcome :=
    [("type", .ok (some (.text kind.name))), ("specification", .ok (some (.text written)))]
  have hchecks : checkFields ctx [("specification", a), ("type", b)] Schema.literal.fields =
      (pure outcomes : Reduction SpecError _) := by
    change checkFields ctx _ [.must "type" (.choice Literal.Kind.names),
      .must "specification" .text] = _
    simp only [checkFields, htype, hspecification]
    rfl
  have hnone : Schema.literal.unexpected [("specification", a), ("type", b)] ++
      fieldProblems outcomes = [] := rfl
  rw [Schema.apply, hchecks, pure_bind, Schema.conclude, hnone]
  dsimp only
  rw [build_literal rfl rfl]
  cases WrittenLiteral.read kind written <;> rfl

theorem callSection_literal {v : Value} (hregistry : ctx.registry = .defaults)
    (hwritten : textOf v = .ok written) :
    ctx.callSection "iso8601" [("specification", v), ("type", .text kind.name)] =
      match WrittenLiteral.read kind written with
      | .ok l => pure (.literal l)
      | .error e => fail (.badArguments "iso8601" [("specification", .nested e)]) := by
  have hresolve : Registry.defaults.resolve? "iso8601" = some Schema.literal := rfl
  unfold Context.callSection Context.call
  rw [hregistry, hresolve]
  simp only [Context.arguments, Context.argument]
  exact Schema.apply_literal hwritten rfl

end Call

/-- The text is digits alone and begins with a zero. -/
def HasLeadingZero (text : List Char) : Prop :=
  text.head? = some '0' ∧ ∀ c ∈ text, c.isDigit = true

instance (text : List Char) : Decidable (HasLeadingZero text) :=
  decidable_of_iff (text.head? = some '0' ∧ text.all Char.isDigit = true)
    (and_congr_right' List.all_eq_true)

section Token

variable {token : List Char} {value : Literal.Value}

theorem Literal.ne_nil_of_read_eq_ok (h : Literal.read kind token = .ok value) : token ≠ [] := by
  rintro rfl
  obtain ⟨-, part, hlonger, -⟩ := leading_of_read_eq_ok (fun _ hc => absurd hc List.not_mem_nil) h
  exact Nat.not_lt_zero _ hlonger

/-- A literal in digits alone that begins with a zero is changed by the number that its token is. -/
theorem read_written_ofToken_ne (h : Literal.read kind token = .ok value)
    (hzero : HasLeadingZero token) :
    Literal.read kind (Value.ofToken token).written.toList ≠ .ok value := by
  intro hagain
  obtain ⟨hlead, hdigits⟩ := hzero
  obtain ⟨hshort, -⟩ := Literal.leading_of_read_eq_ok hdigits h
  rw [ofToken_of_isDigit (Literal.ne_nil_of_read_eq_ok h) hdigits hshort, Value.written,
    Text.natCast_integer_toList] at hagain
  have hdigits' : ∀ c ∈ Text.digits (Text.valueOfDigits token), c.isDigit = true :=
    fun c hc => Text.isDigit_of_mem_digits hc
  have hlead' := Literal.head?_eq_zero_of_read_eq_ok hdigits hdigits' h hagain hlead
  obtain ⟨-, part, hlonger, -⟩ := Literal.leading_of_read_eq_ok hdigits' hagain
  have hnone : Text.valueOfDigits token = 0 := by
    refine Nat.eq_zero_of_not_pos fun hpos => Text.head?_digits_ne hpos hlead'
  rw [hnone, Text.digits, if_pos (by decide), List.length_singleton] at hlonger
  have hwidth : 1 < part.width := by cases part <;> decide
  exact Nat.lt_asymm hwidth hlonger

theorem read_written_ofToken_iff (h : Literal.read kind token = .ok value)
    (hsolid : ∀ c ∈ token, Text.isBlank c = false) :
    Literal.read kind (Value.ofToken token).written.toList = .ok value ↔
      ¬ HasLeadingZero token := by
  refine ⟨fun hagain hzero => read_written_ofToken_ne h hzero hagain, fun hzero => ?_⟩
  rcases written_ofToken hsolid with hwritten | ⟨n, -, hnumber⟩
  · rw [hwritten]
    exact h
  · -- A number loses its sign and its leading zeros, and a literal has no sign to lose.
    have hsome := Literal.ne_nil_of_read_eq_ok h
    have hn := Text.readInteger?_of_readWord64?_eq_some
      (readWord64?_of_ofToken_eq_integer hnumber)
    have hdigits := Literal.isDigit_of_read_eq_ok h hn
    rw [Text.readInteger?_eq_valueOfDigits hsome hdigits] at hn
    cases hn
    have hlead : token.head? ≠ some '0' := fun hlead => hzero ⟨hlead, hdigits⟩
    rw [hnumber, Value.written, Text.natCast_integer_toList,
      Text.digits_valueOfDigits hdigits hsome hlead]
    exact h

end Token

theorem callSection_literal_iff {v : Value} {written : String} {value : Literal.Value}
    (hregistry : ctx.registry = .defaults) (hwritten : textOf v = .ok written) :
    (∃ l, ctx.callSection "iso8601" [("specification", v), ("type", .text kind.name)] =
        pure (.literal l) ∧ l.value = value) ↔ Literal.read kind written.toList = .ok value := by
  rw [callSection_literal hregistry hwritten]
  unfold WrittenLiteral.read
  cases Literal.read kind written.toList with
  | error fault =>
    constructor
    · rintro ⟨l, hl, -⟩
      exact absurd (canReturn_of_eq_pure hl) not_canReturn_fail
    · intro h
      cases h
  | ok made =>
    constructor
    · rintro ⟨l, hl, rfl⟩
      cases eq_of_pure_eq hl
      rfl
    · intro h
      cases h
      exact ⟨_, rfl, rfl⟩

/-- A literal that is one bare token keeps its value in an expression unless it is digits alone and
begins with a zero. Then it never does. -/
theorem literal_in_call_iff {written : String} {value : Literal.Value}
    (hregistry : ctx.registry = .defaults) (hbare : IsBareToken written.toList)
    (hread : Literal.read kind written.toList = .ok value) :
    ∃ args span, Expression.read
        ("iso8601(type: " ++ kind.name ++ ", specification: " ++ written ++ ")") =
          .ok (.call "iso8601" args span) ∧
      ((∃ l, ctx.callSection "iso8601" args = pure (.literal l) ∧ l.value = value) ↔
        ¬ HasLeadingZero written.toList) := by
  obtain ⟨span, hcall⟩ := read_literalCall (Literal.ne_nil_of_read_eq_ok hread) hbare kind
  refine ⟨_, span, hcall, ?_⟩
  rw [callSection_literal_iff hregistry (textOf_ofToken hbare.isSingle)]
  exact read_written_ofToken_iff hread hbare.isSolid

/-- Half past ten in the morning, in digits alone. -/
theorem literal_in_call_half_past_ten :
    let ctx : Context := { registry := .defaults, now := .midnight 0 (by decide) }
    let value : Literal.Value :=
      .time ⟨37800, 0, by decide, by decide, by decide⟩
    Literal.read .time "103000".toList = .ok value ∧
      ∃ args span, Expression.read "iso8601(type: time, specification: 103000)" =
          .ok (.call "iso8601" args span) ∧
        ∃ l, ctx.callSection "iso8601" args = pure (.literal l) ∧ l.value = value := by
  intro ctx value
  have hread : Literal.read .time "103000".toList = .ok value :=
    eq_ok_of_toOption_eq_some (by decide +kernel)
  have hbare : IsBareToken "103000".toList := by decide
  have hregistry : ctx.registry = .defaults := rfl
  obtain ⟨args, span, hcall, hiff⟩ := literal_in_call_iff hregistry hbare hread
  exact ⟨hread, args, span, hcall, hiff.2 (by decide)⟩

/-- Ten and a half minutes past midnight become half past ten. -/
theorem not_literal_in_call_leading_zeros :
    let ctx : Context := { registry := .defaults, now := .midnight 0 (by decide) }
    let value : Literal.Value := .time ⟨630, 0, by decide, by decide, by decide⟩
    IsBareToken "001030".toList ∧ Literal.read .time "001030".toList = .ok value ∧
      ∃ args span l, Expression.read "iso8601(type: time, specification: 001030)" =
          .ok (.call "iso8601" args span) ∧
        ctx.callSection "iso8601" args = pure (.literal l) ∧
        l.value = .time ⟨37800, 0, by decide, by decide, by decide⟩ ∧ l.value ≠ value := by
  intro ctx value
  have hregistry : ctx.registry = .defaults := rfl
  have hbare : IsBareToken "001030".toList := by decide
  have hread : Literal.read .time "001030".toList = .ok value :=
    eq_ok_of_toOption_eq_some (by decide +kernel)
  have hagain : Literal.read .time (Value.ofToken "001030".toList).written.toList =
      .ok (.time ⟨37800, 0, by decide, by decide, by decide⟩) :=
    eq_ok_of_toOption_eq_some (by decide +kernel)
  obtain ⟨span, hcall⟩ := read_literalCall (by decide) hbare .time
  obtain ⟨l, hl, hvalue⟩ :=
    (callSection_literal_iff hregistry (textOf_ofToken hbare.isSingle)).2 hagain
  exact ⟨hbare, hread, _, span, l, hcall, hl, hvalue, by rw [hvalue]; decide⟩

end Almanac

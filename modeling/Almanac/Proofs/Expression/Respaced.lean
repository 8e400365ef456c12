import Almanac.Proofs.Expression.Written

/-!
Blanks between the signs of an expression, and inside its bare tokens, make no difference. A text
that is read is still read when blanks are put in and taken out anywhere but inside the names of
sections and arguments, and all that changes is where its calls stand.
-/

namespace Almanac.Expression

open String (utf8Len)

/-- The first character of a text that is not blank. -/
def firstSign? (text : List Char) : Option Char :=
  (text.dropWhile Text.isAsciiBlank).head?

/-- Whether the place between two parts of a text lies inside a name: characters of names stand on
both sides of it. Those of the name of a section have an opening parenthesis behind them. Those of
the name of an argument have a colon behind them, and stand behind the opening parenthesis of a call
or a comma. In a text that is read nothing else stands so, as tokens hold neither parentheses nor
commas. -/
def isInsideName (before after : List Char) : Bool :=
  before.getLast?.any isNameChar && after.head?.any isNameChar &&
    match firstSign? (after.dropWhile isNameChar) with
    | some '(' => true
    | some ':' => (firstSign? (before.reverse.dropWhile isNameChar)).any fun c => c = '(' || c = ','
    | _ => false

/-- The characters `again` are `text` with blanks put in and taken out, and none is put inside a
name. What stands before and after `text` is `before` and `after`. -/
inductive Respaced (after : List Char) : List Char → List Char → List Char → Prop where
  | nil {before : List Char} : Respaced after before [] []
  | keep {before text again : List Char} {c : Char}
      (h : Respaced after (before ++ [c]) text again) :
      Respaced after before (c :: text) (c :: again)
  | remove {before text again : List Char} {c : Char} (hc : Text.isAsciiBlank c = true)
      (h : Respaced after (before ++ [c]) text again) : Respaced after before (c :: text) again
  | insert {before text again : List Char} {c : Char} (hc : Text.isAsciiBlank c = true)
      (hplace : isInsideName before (text ++ after) = false)
      (h : Respaced after before text again) : Respaced after before text (c :: again)

namespace Respaced

variable {before after text again u v : List Char} {c : Char}

/-- The parts of a text are respaced one by one. What is put between them goes to the second. -/
theorem exists_append (h : Respaced after before (u ++ v) again) :
    ∃ u' v', again = u' ++ v' ∧ Respaced (v ++ after) before u u' ∧
      Respaced after (before ++ u) v v' := by
  generalize htext : u ++ v = text at h
  induction h generalizing u with
  | nil =>
    obtain ⟨rfl, rfl⟩ := List.append_eq_nil_iff.1 htext
    exact ⟨[], [], rfl, .nil, .nil⟩
  | @keep before text again c h ih =>
    cases u with
    | nil =>
      rw [List.nil_append] at htext
      subst htext
      exact ⟨[], c :: again, rfl, .nil, by simpa using h.keep⟩
    | cons d u =>
      obtain ⟨rfl, htail⟩ := List.cons.inj htext
      obtain ⟨u', v', rfl, hu, hv⟩ := ih htail
      exact ⟨d :: u', v', rfl, hu.keep, by simpa using hv⟩
  | @remove before text again c hc h ih =>
    cases u with
    | nil =>
      rw [List.nil_append] at htext
      subst htext
      exact ⟨[], again, rfl, .nil, by simpa using h.remove hc⟩
    | cons d u =>
      obtain ⟨rfl, htail⟩ := List.cons.inj htext
      obtain ⟨u', v', rfl, hu, hv⟩ := ih htail
      exact ⟨u', v', rfl, hu.remove hc, by simpa using hv⟩
  | @insert before text again c hc hplace h ih =>
    obtain ⟨u', v', rfl, hu, hv⟩ := ih htext
    subst htext
    exact ⟨c :: u', v', rfl, hu.insert hc (by simpa using hplace), hv⟩

theorem isBlanks (h : Respaced after before text again) (htext : IsBlanks text) :
    IsBlanks again := by
  induction h with
  | nil => exact IsBlanks.nil
  | keep _ ih =>
    obtain ⟨hc, htext⟩ := List.forall_mem_cons.1 htext
    exact (ih htext).cons hc
  | remove _ _ ih => exact ih (List.forall_mem_cons.1 htext).2
  | insert hc _ _ ih => exact (ih htext).cons hc

/-- No character is lost or added but blanks. -/
theorem filter_isBlank_eq (h : Respaced after before text again) :
    again.filter (!Text.isBlank ·) = text.filter (!Text.isBlank ·) := by
  induction h with
  | nil => rfl
  | keep _ ih => rw [List.filter_cons, List.filter_cons, ih]
  | remove hc _ ih =>
    rw [List.filter_cons, Text.isBlank_of_isAsciiBlank hc]
    exact ih
  | insert hc _ _ ih =>
    rw [List.filter_cons, Text.isBlank_of_isAsciiBlank hc]
    exact ih

theorem forall_isDelimiter_eq_false (h : Respaced after before text again)
    (htext : ∀ c ∈ text, isDelimiter c = false) : ∀ c ∈ again, isDelimiter c = false := by
  induction h with
  | nil => exact htext
  | keep _ ih =>
    rw [List.forall_mem_cons] at htext ⊢
    exact ⟨htext.1, ih htext.2⟩
  | remove _ _ ih => exact ih (List.forall_mem_cons.1 htext).2
  | insert hc _ _ ih =>
    exact List.forall_mem_cons.2 ⟨isDelimiter_eq_false_of_isAsciiBlank hc, ih htext⟩

/-- Before a character that is kept there are new blanks at most. -/
theorem exists_cons (hc : Text.isAsciiBlank c = false)
    (h : Respaced after before (c :: text) again) :
    ∃ blanks rest, again = blanks ++ c :: rest ∧ IsBlanks blanks ∧
      Respaced after (before ++ [c]) text rest := by
  generalize htext : c :: text = all at h
  induction h with
  | nil => cases htext
  | keep h _ =>
    cases htext
    exact ⟨[], _, rfl, IsBlanks.nil, h⟩
  | remove hblank _ _ =>
    cases htext
    rw [hc] at hblank
    cases hblank
  | insert hblank _ _ ih =>
    obtain ⟨blanks, rest, rfl, hblanks, hrest⟩ := ih htext
    exact ⟨_, rest, rfl, hblanks.cons hblank, hrest⟩

/-- A sign with blanks behind it. -/
theorem exists_sign (hc : Text.isAsciiBlank c = false) (htext : IsBlanks text)
    (h : Respaced after before (c :: text) again) :
    ∃ u v, again = u ++ c :: v ∧ IsBlanks u ∧ IsBlanks v := by
  obtain ⟨u, v, rfl, hu, hv⟩ := exists_cons hc h
  exact ⟨u, v, rfl, hu, hv.isBlanks htext⟩

/-- A sign with blanks around it, behind something else. -/
theorem exists_mark {gap : List Char} (hc : Text.isAsciiBlank c = false) (hgap : IsBlanks gap)
    (htext : IsBlanks text) (h : Respaced after before (u ++ gap ++ c :: text) again) :
    ∃ u' blanks behind, again = u' ++ blanks ++ c :: behind ∧ IsBlanks blanks ∧ IsBlanks behind ∧
      Respaced (gap ++ (c :: text ++ after)) before u u' := by
  obtain ⟨_, _, rfl, h, hmark⟩ := h.exists_append
  obtain ⟨u', blanks, rfl, hu, hblanks⟩ := h.exists_append
  obtain ⟨more, behind, rfl, hmore, hbehind⟩ := hmark.exists_sign hc htext
  exact ⟨u', blanks ++ more, behind, by simp, (hblanks.isBlanks hgap).append hmore, hbehind, hu⟩

/-- Between characters with no place to put blanks there are none. -/
theorem exists_of_isInsideName (hchars : ∀ c ∈ text, isNameChar c = true)
    (hinside : ∀ u v, text = u ++ v → v ≠ [] → isInsideName (before ++ u) (v ++ after) = true)
    (h : Respaced after before text again) :
    ∃ blanks, again = text ++ blanks ∧ IsBlanks blanks := by
  induction h with
  | nil => exact ⟨[], rfl, IsBlanks.nil⟩
  | @keep before text again c h ih =>
    obtain ⟨blanks, rfl, hblanks⟩ := ih (List.forall_mem_cons.1 hchars).2 fun u v huv hv => by
      simpa using hinside (c :: u) v (congrArg (c :: ·) huv) hv
    exact ⟨blanks, rfl, hblanks⟩
  | remove hc _ _ =>
    rw [isAsciiBlank_eq_false_of_isNameChar (List.forall_mem_cons.1 hchars).1] at hc
    cases hc
  | @insert before text again c hc hplace h _ =>
    cases text with
    | nil => exact ⟨c :: again, rfl, (h.isBlanks IsBlanks.nil).cons hc⟩
    | cons d text =>
      have hinside := hinside [] (d :: text) rfl (List.cons_ne_nil d text)
      rw [List.append_nil, hplace] at hinside
      cases hinside

/-- Blanks stand around a name that is respaced, and not inside. -/
theorem exists_name (hname : IsName text)
    (hinside : ∀ u v, text = u ++ v → u ≠ [] → v ≠ [] →
      isInsideName (before ++ u) (v ++ after) = true)
    (h : Respaced after before text again) :
    ∃ u v, again = u ++ text ++ v ∧ IsBlanks u ∧ IsBlanks v := by
  cases text with
  | nil => cases hname
  | cons c rest =>
    obtain ⟨hc, hrest⟩ := List.forall_mem_cons.1 hname.isNameChar
    obtain ⟨blanks, again, rfl, hblanks, h⟩ :=
      exists_cons (isAsciiBlank_eq_false_of_isNameChar hc) h
    have hinside' : ∀ u v, rest = u ++ v → v ≠ [] →
        isInsideName (before ++ [c] ++ u) (v ++ after) = true := fun u v huv hv => by
      simpa using hinside (c :: u) v (congrArg (c :: ·) huv) (List.cons_ne_nil c u) hv
    obtain ⟨behind, rfl, hbehind⟩ := h.exists_of_isInsideName hrest hinside'
    exact ⟨blanks, behind, by simp, hblanks, hbehind⟩

end Respaced

section Names

variable {before u v w blanks rest : List Char} {sign : Char}

/-- What follows characters of a name and then blanks. -/
theorem firstSign?_dropWhile_append (hchars : ∀ c ∈ u, isNameChar c = true)
    (hblanks : IsBlanks blanks) (hname : isNameChar sign = false)
    (hsign : Text.isAsciiBlank sign = false) :
    firstSign? ((u ++ (blanks ++ sign :: rest)).dropWhile isNameChar) = some sign := by
  have hstop : (blanks ++ sign :: rest).dropWhile isNameChar = blanks ++ sign :: rest := by
    cases blanks with
    | nil => simp [hname]
    | cons c others =>
      simp [isNameChar_eq_false_of_isAsciiBlank (hblanks c (List.mem_cons_self ..))]
  rw [List.dropWhile_append_of_pos hchars, hstop, firstSign?, List.dropWhile_append_of_pos hblanks]
  simp [hsign]

theorem any_getLast?_append (hchars : ∀ c ∈ u, isNameChar c = true) (hsome : u ≠ []) :
    (before ++ u).getLast?.any isNameChar = true := by
  rw [List.getLast?_append_of_ne_nil before hsome, List.getLast?_eq_some_getLast hsome]
  exact hchars _ (List.getLast_mem hsome)

theorem any_head?_append (hchars : ∀ c ∈ v, isNameChar c = true) (hsome : v ≠ []) :
    (v ++ rest).head?.any isNameChar = true := by
  cases v with
  | nil => exact absurd rfl hsome
  | cons c others => exact hchars c (List.mem_cons_self ..)

/-- The name of a section has blanks and an opening parenthesis behind it. -/
theorem isInsideName_of_section (hname : IsName w) (hblanks : IsBlanks blanks) (hw : w = u ++ v)
    (hu : u ≠ []) (hv : v ≠ []) :
    isInsideName (before ++ u) (v ++ (blanks ++ '(' :: rest)) = true := by
  have hchars := hname.isNameChar
  rw [hw, List.forall_mem_append] at hchars
  unfold isInsideName
  rw [any_getLast?_append hchars.1 hu, any_head?_append hchars.2 hv,
    firstSign?_dropWhile_append hchars.2 hblanks rfl rfl]
  rfl

/-- Whether the name of an argument can follow. -/
def OpensArgument (before : List Char) : Prop :=
  ∃ u c blanks, before = u ++ c :: blanks ∧ (c = '(' ∨ c = ',') ∧ IsBlanks blanks

/-- The name of an argument has blanks and a colon behind it. -/
theorem OpensArgument.isInsideName (hbefore : OpensArgument before) (hname : IsName w)
    (hblanks : IsBlanks blanks) (hw : w = u ++ v) (hu : u ≠ []) (hv : v ≠ []) :
    isInsideName (before ++ u) (v ++ (blanks ++ ':' :: rest)) = true := by
  obtain ⟨first, c, spaces, rfl, hc, hspaces⟩ := hbefore
  have hchars := hname.isNameChar
  rw [hw, List.forall_mem_append] at hchars
  have hreverse : (first ++ c :: spaces ++ u).reverse =
      u.reverse ++ (spaces.reverse ++ c :: first.reverse) := by simp
  have hsign : isNameChar c = false ∧ Text.isAsciiBlank c = false := by
    rcases hc with rfl | rfl <;> decide
  have hearlier : firstSign? ((first ++ c :: spaces ++ u).reverse.dropWhile isNameChar) =
      some c := by
    rw [hreverse]
    exact firstSign?_dropWhile_append (fun d hd => hchars.1 d (List.mem_reverse.1 hd))
      (fun d hd => hspaces d (List.mem_reverse.1 hd)) hsign.1 hsign.2
  unfold Expression.isInsideName
  rw [any_getLast?_append hchars.1 hu, any_head?_append hchars.2 hv,
    firstSign?_dropWhile_append hchars.2 hblanks rfl rfl, hearlier]
  rcases hc with rfl | rfl <;> rfl

end Names

/-- The characters are a way to write the phrase, wherever in the text it may stand. -/
def Phrase.IsSpelledBy (w : List Char) : Phrase → Prop
  | .term _ tree => ∀ start, ∃ other, Spells w (.term start other) ∧
      other.withoutSpans = tree.withoutSpans
  | .chain _ tree => ∀ start, ∃ other, Spells w (.chain start other) ∧
      other.withoutSpans = tree.withoutSpans
  | phrase => Spells w phrase

/-- The same with blanks at both ends. -/
def Phrase.IsSpacedBy (w : List Char) (phrase : Phrase) : Prop :=
  ∃ before inner after, w = before ++ inner ++ after ∧ IsBlanks before ∧ IsBlanks after ∧
    phrase.IsSpelledBy inner

/-- Whether what stands before the phrase tells its names for what they are. -/
def Phrase.Follows (before : List Char) : Phrase → Prop
  | .arguments _ | .argument _ _ => OpensArgument before
  | _ => True

/-- However the characters of the phrase are respaced, they spell the phrase again. -/
def Phrase.IsRespaced (w : List Char) (phrase : Phrase) : Prop :=
  ∀ before after again, phrase.Follows before → Respaced after before w again →
    phrase.IsSpacedBy again

section Productions

variable {name key before first w last u after pre post again : List Char} {sign : Char}
  {args : List (String × Value)} {v : Value} {start middle : Nat} {tree left right : Tree}

/-- A name, a sign behind it, and blanks that go with them. -/
theorem Respaced.exists_head (hname : IsName name) (hbefore : IsBlanks before)
    (hfirst : IsBlanks first) (hsign : Text.isAsciiBlank sign = false)
    (hinside : ∀ rest u v, name = u ++ v → u ≠ [] → v ≠ [] →
      isInsideName (pre ++ u) (v ++ (before ++ sign :: rest)) = true)
    (h : Respaced post pre (name ++ before ++ sign :: first) again) :
    ∃ blanks gap behind, again = blanks ++ (name ++ gap ++ sign :: behind) ∧
      IsBlanks blanks ∧ IsBlanks gap ∧ IsBlanks behind := by
  obtain ⟨_, gap, behind, rfl, hgap, hbehind, hhead⟩ := h.exists_mark hsign hbefore hfirst
  obtain ⟨blanks, more, rfl, hblanks, hmore⟩ := hhead.exists_name hname (hinside (first ++ post))
  exact ⟨blanks, more ++ gap, behind, by simp, hblanks, hmore.append hgap, hbehind⟩

theorem isRespaced_emptyCall (hname : IsName name) (hbefore : IsBlanks before)
    (hinside : IsBlanks first) :
    (Phrase.call (String.ofList name) []).IsRespaced (name ++ before ++ '(' :: first ++ [')']) := by
  intro pre post again _ h
  obtain ⟨_, _, rfl, hhead, hclose⟩ := h.exists_append
  obtain ⟨b₁, gap, b₂, rfl, hb₁, hgap, hb₂⟩ := hhead.exists_head hname hbefore hinside rfl
    fun _ _ _ hw hu hv => isInsideName_of_section hname hbefore hw hu hv
  obtain ⟨b₃, b₄, rfl, hb₃, hb₄⟩ := hclose.exists_sign rfl IsBlanks.nil
  exact ⟨b₁, _, b₄, by simp, hb₁, hb₄, Spells.emptyCall hname hgap (hb₂.append hb₃)⟩

theorem isRespaced_call (hname : IsName name) (hbefore : IsBlanks before) (hfirst : IsBlanks first)
    (hargs : (Phrase.arguments args).IsRespaced w) (hlast : IsBlanks last)
    (hdistinct : (args.map Prod.fst).Nodup) :
    (Phrase.call (String.ofList name) (Keyed.ofList args)).IsRespaced
      (name ++ before ++ '(' :: first ++ w ++ last ++ [')']) := by
  intro pre post again _ h
  obtain ⟨_, gap, b₁, rfl, hgap, hb₁, h⟩ := h.exists_mark rfl hlast IsBlanks.nil
  obtain ⟨_, _, rfl, hhead, hinside⟩ := h.exists_append
  obtain ⟨b₂, b₃, b₄, rfl, hb₂, hb₃, hb₄⟩ := hhead.exists_head hname hbefore hfirst rfl
    fun _ _ _ hw hu hv => isInsideName_of_section hname hbefore hw hu hv
  have hopens : OpensArgument (pre ++ (name ++ before ++ '(' :: first)) :=
    ⟨pre ++ name ++ before, '(', first, by simp, Or.inl rfl, hfirst⟩
  obtain ⟨b₅, inner, b₆, rfl, hb₅, hb₆, hinner⟩ := hargs _ _ _ hopens hinside
  exact ⟨b₂, _, b₁, by simp, hb₂, hb₁,
    Spells.call hname hb₃ (hb₄.append hb₅) hinner (hb₆.append hgap) hdistinct⟩

theorem isRespaced_firstArgument {key : String} (h : (Phrase.argument key v).IsRespaced w) :
    (Phrase.arguments [(key, v)]).IsRespaced w := by
  intro pre post again hopens hagain
  obtain ⟨b₁, inner, b₂, rfl, hb₁, hb₂, hinner⟩ := h pre post again hopens hagain
  exact ⟨b₁, inner, b₂, rfl, hb₁, hb₂, Spells.firstArgument hinner⟩

theorem isRespaced_furtherArgument {key : String} (hargs : (Phrase.arguments args).IsRespaced u)
    (hbefore : IsBlanks before) (hafter : IsBlanks after)
    (h : (Phrase.argument key v).IsRespaced w) :
    (Phrase.arguments (args ++ [(key, v)])).IsRespaced (u ++ before ++ ',' :: after ++ w) := by
  intro pre post again hopens hagain
  obtain ⟨_, _, rfl, hagain, hlast⟩ := hagain.exists_append
  obtain ⟨_, gap, b₁, rfl, hgap, hb₁, hfirst⟩ := hagain.exists_mark rfl hbefore hafter
  obtain ⟨b₂, earlier, b₃, rfl, hb₂, hb₃, hearlier⟩ := hargs _ _ _ hopens hfirst
  have hcomma : OpensArgument (pre ++ (u ++ before ++ ',' :: after)) :=
    ⟨pre ++ u ++ before, ',', after, by simp, Or.inr rfl, hafter⟩
  obtain ⟨b₄, inner, b₅, rfl, hb₄, hb₅, hinner⟩ := h _ _ _ hcomma hlast
  exact ⟨b₂, _, b₅, by simp, hb₂, hb₅,
    Spells.furtherArgument hearlier (hb₃.append hgap) (hb₁.append hb₄) hinner⟩

theorem isRespaced_argument (hkey : IsName key) (hbefore : IsBlanks before)
    (hafter : IsBlanks after) (h : (Phrase.value v).IsRespaced w) :
    (Phrase.argument (String.ofList key) v).IsRespaced (key ++ before ++ ':' :: after ++ w) := by
  intro pre post again hopens hagain
  obtain ⟨_, _, rfl, hhead, hvalue⟩ := hagain.exists_append
  obtain ⟨b₁, gap, b₂, rfl, hb₁, hgap, hb₂⟩ := hhead.exists_head hkey hbefore hafter rfl
    fun _ _ _ hw hu hv => OpensArgument.isInsideName hopens hkey hbefore hw hu hv
  obtain ⟨b₃, inner, b₄, rfl, hb₃, hb₄, hinner⟩ := h _ _ _ trivial hvalue
  exact ⟨b₁, _, b₄, by simp, hb₁, hb₄, Spells.argument hkey hgap (hb₂.append hb₃) hinner⟩

theorem isRespaced_nested {name : String} (h : (Phrase.call name args).IsRespaced w) :
    (Phrase.value (.call name args)).IsRespaced w := by
  intro pre post again _ hagain
  obtain ⟨b₁, inner, b₂, rfl, hb₁, hb₂, hinner⟩ := h pre post again trivial hagain
  exact ⟨b₁, inner, b₂, rfl, hb₁, hb₂, Spells.nested hinner⟩

/-- Inside a token blanks may be put anywhere, as it loses all of them. -/
theorem isRespaced_token (hrun : ∀ c ∈ w, isDelimiter c = false)
    (hsome : ∃ c ∈ w, Text.isBlank c = false) :
    (Phrase.value (Value.ofToken (w.filter (!Text.isBlank ·)))).IsRespaced w := by
  intro pre post again _ hagain
  refine ⟨[], again, [], by simp, IsBlanks.nil, IsBlanks.nil, ?_⟩
  have hkept := hagain.filter_isBlank_eq
  rw [← filter_isBlank_ne_nil_iff, ← hkept] at hsome
  rw [← hkept]
  exact Spells.token (hagain.forall_isDelimiter_eq_false hrun) (filter_isBlank_ne_nil_iff.1 hsome)

theorem isRespaced_term {name : String} {span : Span} (h : (Phrase.call name args).IsRespaced w) :
    (Phrase.term start (.call name args span)).IsRespaced w := by
  intro pre post again _ hagain
  obtain ⟨b₁, inner, b₂, rfl, hb₁, hb₂, hinner⟩ := h pre post again trivial hagain
  exact ⟨b₁, inner, b₂, rfl, hb₁, hb₂, fun _ => ⟨_, Spells.term hinner, rfl⟩⟩

theorem isRespaced_parentheses (hbefore : IsBlanks before)
    (h : (Phrase.chain middle tree).IsRespaced w) (hafter : IsBlanks after) :
    (Phrase.term start tree).IsRespaced ('(' :: before ++ w ++ after ++ [')']) := by
  intro pre post again _ hagain
  obtain ⟨_, gap, b₁, rfl, hgap, hb₁, hagain⟩ := hagain.exists_mark rfl hafter IsBlanks.nil
  obtain ⟨_, _, rfl, hopen, hinside⟩ := hagain.exists_append
  obtain ⟨b₂, b₃, rfl, hb₂, hb₃⟩ := hopen.exists_sign rfl hbefore
  obtain ⟨b₄, inner, b₅, rfl, hb₄, hb₅, hinner⟩ := h _ _ _ trivial hinside
  refine ⟨b₂, '(' :: (b₃ ++ b₄) ++ inner ++ (b₅ ++ gap) ++ [')'], b₁, by simp, hb₂, hb₁,
    fun start => ?_⟩
  obtain ⟨other, hspells, hshape⟩ := hinner (start + utf8Len ('(' :: (b₃ ++ b₄)))
  exact ⟨other, Spells.parentheses (hb₃.append hb₄) hspells (hb₅.append hgap), hshape⟩

theorem isRespaced_single (h : (Phrase.term start tree).IsRespaced w) :
    (Phrase.chain start tree).IsRespaced w := by
  intro pre post again _ hagain
  obtain ⟨b₁, inner, b₂, rfl, hb₁, hb₂, hinner⟩ := h pre post again trivial hagain
  refine ⟨b₁, inner, b₂, rfl, hb₁, hb₂, fun start => ?_⟩
  obtain ⟨other, hspells, hshape⟩ := hinner start
  exact ⟨other, Spells.single hspells, hshape⟩

theorem isRespaced_join {joiner : Joiner} (hleft : (Phrase.chain start left).IsRespaced u)
    (hbefore : IsBlanks before) (hafter : IsBlanks after)
    (hright : (Phrase.term middle right).IsRespaced w) :
    (Phrase.chain start (.join joiner left right)).IsRespaced
      (u ++ before ++ joiner.sign :: after ++ w) := by
  intro pre post again _ hagain
  have hsolid : Text.isAsciiBlank joiner.sign = false := by cases joiner <;> rfl
  obtain ⟨_, _, rfl, hagain, hlast⟩ := hagain.exists_append
  obtain ⟨_, gap, b₁, rfl, hgap, hb₁, hfirst⟩ := hagain.exists_mark hsolid hbefore hafter
  obtain ⟨b₂, earlier, b₃, rfl, hb₂, hb₃, hearlier⟩ := hleft _ _ _ trivial hfirst
  obtain ⟨b₄, inner, b₅, rfl, hb₄, hb₅, hinner⟩ := hright _ _ _ trivial hlast
  refine ⟨b₂, earlier ++ (b₃ ++ gap) ++ joiner.sign :: (b₁ ++ b₄) ++ inner, b₅, by simp, hb₂, hb₅,
    fun start => ?_⟩
  obtain ⟨left', hleft', hleftShape⟩ := hearlier start
  obtain ⟨right', hright', hrightShape⟩ := hinner (start + utf8Len _)
  refine ⟨.join joiner left' right',
    Spells.join hleft' (hb₃.append hgap) (hb₁.append hb₄) hright', ?_⟩
  rw [Tree.withoutSpans, Tree.withoutSpans, hleftShape, hrightShape]

end Productions

theorem isRespaced_of_spells {w : List Char} {p : Phrase} (h : Spells w p) : p.IsRespaced w := by
  induction h with
  | emptyCall hname hbefore hinside => exact isRespaced_emptyCall hname hbefore hinside
  | call hname hbefore hfirst _ hlast hdistinct ih =>
    exact isRespaced_call hname hbefore hfirst ih hlast hdistinct
  | firstArgument _ ih => exact isRespaced_firstArgument ih
  | furtherArgument _ hbefore hafter _ ihArgs ih =>
    exact isRespaced_furtherArgument ihArgs hbefore hafter ih
  | argument hkey hbefore hafter _ ih => exact isRespaced_argument hkey hbefore hafter ih
  | nested _ ih => exact isRespaced_nested ih
  | token hrun hsome => exact isRespaced_token hrun hsome
  | term _ ih => exact isRespaced_term ih
  | parentheses hbefore _ hafter ih => exact isRespaced_parentheses hbefore ih hafter
  | single _ ih => exact isRespaced_single ih
  | join _ hbefore hafter _ ihLeft ihRight =>
    exact isRespaced_join ihLeft hbefore hafter ihRight

/-- A text that is read is read after blanks have been put in or taken out anywhere but inside the
names of sections and arguments, with the same answer up to the places of the calls. -/
theorem read_respaced {text again : String} {tree : Tree} (h : read text = .ok tree)
    (hagain : Respaced [] [] text.toList again.toList) :
    ∃ other, read again = .ok other ∧ other.withoutSpans = tree.withoutSpans := by
  obtain ⟨before, w, after, htext, hbefore, hafter, hspells⟩ := isExpression_of_read_eq_ok h
  rw [htext] at hagain
  obtain ⟨_, last, hsplit, hagain, hlast⟩ := hagain.exists_append
  obtain ⟨first, _, rfl, hfirst, hinside⟩ := hagain.exists_append
  obtain ⟨b₁, inner, b₂, rfl, hb₁, hb₂, hinner⟩ :=
    isRespaced_of_spells hspells _ _ _ trivial hinside
  obtain ⟨other, hother, hshape⟩ := hinner (utf8Len (first ++ b₁))
  have hexpression : IsExpression again.toList other :=
    ⟨first ++ b₁, inner, b₂ ++ last, by rw [hsplit]; simp, (hfirst.isBlanks hbefore).append hb₁,
      hb₂.append (hlast.isBlanks hafter), hother⟩
  exact ⟨other, read_of_isExpression hexpression, hshape⟩

/-- Blanks around signs, one taken out of a token and one put into the digits of a number. -/
theorem read_respaced_inside_tokens :
    ∃ tree other, read "a(x:b c,y:10)|d()" = .ok tree ∧ read " a (x:bc,y:1 0)|d(\n)" = .ok other ∧
      other.withoutSpans = tree.withoutSpans := by
  have hread : read "a(x:b c,y:10)|d()" =
      .ok (.join .or (.call "a" [("x", .text "bc"), ("y", .integer 10)] ⟨0, 13⟩)
        (.call "d" [] ⟨14, 17⟩)) := by rfl
  have hagain : Respaced [] [] "a(x:b c,y:10)|d()".toList " a (x:bc,y:1 0)|d(\n)".toList :=
    .insert rfl rfl <| .keep <| .insert rfl rfl <| .keep <| .keep <| .keep <| .keep <|
      .remove rfl <| .keep <| .keep <| .keep <| .keep <| .keep <| .insert rfl rfl <| .keep <|
      .keep <| .keep <| .keep <| .keep <| .insert rfl rfl <| .keep .nil
  obtain ⟨other, hother, hshape⟩ := read_respaced hread hagain
  exact ⟨_, other, hread, hother, hshape⟩

end Almanac.Expression

import Almanac.Proofs.Expression.Grammar
import Almanac.Proofs.Keyed

/-!
What the reader does with the characters of a phrase. A phrase is read from wherever it may stand:
with any left sides and open parentheses around a chain, and any open calls around an argument. So
a whole expression is read to the tree that it spells.
-/

namespace Almanac.Expression

open String (utf8Len)

namespace State

/-- The characters, from a byte of the text on, take the reader from `s` to `reached`. -/
def Reads (s : State) (position : Nat) (w : List Char) (reached : State) : Prop :=
  s.run position w = .ok (reached, position + utf8Len w)

variable {s reached last : State} {position : Nat} {u w : List Char} {c : Char}

theorem run_append (s : State) (position : Nat) (u w : List Char) :
    s.run position (u ++ w) = (s.run position u).bind fun read => read.1.run read.2 w := by
  induction u generalizing s position with
  | nil => rfl
  | cons c rest ih =>
    rw [List.cons_append, run, run]
    cases s.step position c with
    | ok next => exact ih next (position + c.utf8Size)
    | error problem => rfl

theorem Reads.run_append (h : s.Reads position u reached) (w : List Char) :
    s.run position (u ++ w) = reached.run (position + utf8Len u) w := by
  rw [State.run_append, h]
  rfl

theorem Reads.nil (s : State) (position : Nat) : s.Reads position [] s := rfl

theorem Reads.append (h : s.Reads position u reached)
    (hrest : reached.Reads (position + utf8Len u) w last) : s.Reads position (u ++ w) last := by
  unfold Reads at *
  rw [State.Reads.run_append h, hrest, String.utf8Len_append, Nat.add_assoc]

theorem reads_singleton (h : s.step position c = .ok reached) : s.Reads position [c] reached := by
  simp [Reads, run, h]

theorem Reads.cons (h : s.step position c = .ok reached)
    (hrest : reached.Reads (position + c.utf8Size) w last) : s.Reads position (c :: w) last := by
  rw [← List.singleton_append]
  refine (reads_singleton h).append ?_
  rw [String.utf8Len_cons, String.utf8Len_nil, Nat.zero_add]
  exact hrest

theorem reads_cons_iff : s.Reads position (c :: w) last ↔
    ∃ next, s.step position c = .ok next ∧ next.Reads (position + c.utf8Size) w last := by
  refine ⟨fun h => ?_, fun ⟨next, hnext, hrest⟩ => Reads.cons hnext hrest⟩
  unfold Reads at h
  rw [run] at h
  cases hstep : s.step position c with
  | error problem =>
    rw [hstep] at h
    cases h
  | ok next =>
    rw [hstep, String.utf8Len_cons, Nat.add_comm (utf8Len w), ← Nat.add_assoc] at h
    exact ⟨next, rfl, h⟩

theorem reads_append_iff : s.Reads position (u ++ w) last ↔
    ∃ reached, s.Reads position u reached ∧ reached.Reads (position + utf8Len u) w last := by
  refine ⟨fun h => ?_, fun ⟨reached, hreached, hrest⟩ => hreached.append hrest⟩
  induction u generalizing s position with
  | nil => exact ⟨s, Reads.nil s position, h⟩
  | cons c rest ih =>
    obtain ⟨next, hnext, hrest⟩ := reads_cons_iff.1 h
    obtain ⟨reached, hreached, hlast⟩ := ih hrest
    refine ⟨reached, Reads.cons hnext hreached, ?_⟩
    rw [String.utf8Len_cons, Nat.add_comm (utf8Len rest), ← Nat.add_assoc]
    exact hlast

/-- The reader stops behind the characters that it has read. -/
theorem reads_of_run_eq_ok {stop : Nat} (h : s.run position w = .ok (last, stop)) :
    s.Reads position w last := by
  induction w generalizing s position with
  | nil =>
    cases h
    exact Reads.nil _ _
  | cons c rest ih =>
    rw [run] at h
    cases hstep : s.step position c with
    | error problem =>
      rw [hstep] at h
      cases h
    | ok next =>
      rw [hstep] at h
      exact Reads.cons hstep (ih h)

/-- The answer to the rest of a text. -/
def readOn (s : State) (position : Nat) (rest : List Char) : Except Problem Tree :=
  (s.run position rest).bind fun (last, stop) => last.finish stop

theorem Reads.readOn_append (h : s.Reads position u reached) (w : List Char) :
    s.readOn position (u ++ w) = reached.readOn (position + utf8Len u) w := by
  unfold readOn
  rw [h.run_append]

theorem run_singleton (s : State) (position : Nat) (c : Char) :
    s.run position [c] = (s.step position c).map fun next => (next, position + utf8Len [c]) := by
  rw [run, String.utf8Len_cons, String.utf8Len_nil, Nat.zero_add]
  cases s.step position c with
  | ok next => rfl
  | error problem => rfl

/-- A reader that files each character of a kind files a run of them. -/
theorem reads_run {kind : Char → Prop} {reader : List Char → State}
    (hstep : ∀ filed position c, kind c →
      (reader filed).step position c = .ok (reader (filed ++ [c])))
    (hkind : ∀ c ∈ w, kind c) (filed : List Char) (position : Nat) :
    (reader filed).Reads position w (reader (filed ++ w)) := by
  induction w generalizing filed position with
  | nil =>
    rw [List.append_nil]
    exact Reads.nil _ position
  | cons c rest ih =>
    obtain ⟨hc, hrest⟩ := List.forall_mem_cons.1 hkind
    rw [← List.singleton_append, ← List.append_assoc]
    exact Reads.cons (hstep filed position c hc) (ih hrest (filed ++ [c]) _)

/-- A reader that stays where it is at a blank stays where it is over many. -/
theorem reads_blanks (hstay : ∀ position c, Text.isAsciiBlank c = true → s.step position c = .ok s)
    (hblanks : IsBlanks w) (position : Nat) : s.Reads position w s := by
  have hstep : ∀ (_ : List Char) position c, Text.isAsciiBlank c = true →
      s.step position c = .ok s := fun _ => hstay
  exact reads_run hstep hblanks [] position

/-- Before a sign that is due, blanks lead from `s` to a place where the same sign is due. -/
theorem reads_sign (later : State) {sign : Char}
    (hblank : ∀ position c, Text.isAsciiBlank c = true →
      s.step position c = .ok later ∧ later.step position c = .ok later)
    (hsign : ∀ position,
      s.step position sign = .ok reached ∧ later.step position sign = .ok reached)
    (hblanks : IsBlanks w) (position : Nat) : s.Reads position (w ++ [sign]) reached := by
  cases w with
  | nil => exact reads_singleton (hsign position).1
  | cons c rest =>
    obtain ⟨hc, hrest⟩ := List.forall_mem_cons.1 hblanks
    have hskip := reads_blanks (fun position d hd => (hblank position d hd).2) hrest
      (position + c.utf8Size)
    exact Reads.cons (hblank position c hc).1 (hskip.append (reads_singleton (hsign _).2))

/-- The reader inside a call, with the left sides and parentheses of `s` around it. -/
abbrev inCall (s : State) (start : Nat) (outer : List OpenArgument) (inner : OpenCall)
    (mode : CallMode) : State :=
  { s with mode := .call start outer inner mode }

variable {start keyStart tokenStart : Nat} {outer : List OpenArgument} {inner call : OpenCall}
  {mode later : CallMode} {name key : String}

/-- From a place in a call, over some characters, any blanks and a comma or closing parenthesis, the
reader goes on as it does behind the last argument of `call`. -/
def Completes (s : State) (start : Nat) (outer : List OpenArgument) (inner : OpenCall)
    (mode : CallMode) (position : Nat) (w : List Char) (call : OpenCall) : Prop :=
  ∀ after c, IsBlanks after → c = ',' ∨ c = ')' →
    (s.inCall start outer inner mode).run position (w ++ after ++ [c]) =
      (s.stepNext start outer call (position + utf8Len (w ++ after)) c).map
        fun next => (next, position + utf8Len (w ++ after ++ [c]))

theorem Completes.prepend {further : OpenCall}
    (hu : (s.inCall start outer inner mode).Reads position u (s.inCall start outer further later))
    (hw : s.Completes start outer further later (position + utf8Len u) w call) :
    s.Completes start outer inner mode position (u ++ w) call := by
  intro after c hafter hc
  have hrest := hw after c hafter hc
  rw [List.append_assoc, List.append_assoc, hu.run_append, ← List.append_assoc, hrest]
  simp only [String.utf8Len_append, Nat.add_assoc]

theorem ne_of_isAsciiBlank {d : Char} (hc : Text.isAsciiBlank c = true)
    (hd : Text.isAsciiBlank d = false) : c ≠ d := by
  rintro rfl
  rw [hc] at hd
  cases hd

theorem reads_blanks_term (hmode : s.mode = .term) (hblanks : IsBlanks w) (position : Nat) :
    s.Reads position w s :=
  reads_blanks (fun position c hc => by simp [step, hmode, stepTerm, hc]) hblanks position

theorem reads_blanks_operator {tree : Tree} (hmode : s.mode = .operator tree)
    (hblanks : IsBlanks w) (position : Nat) : s.Reads position w s :=
  reads_blanks (fun position c hc => by simp [step, hmode, stepOperator, hc]) hblanks position

/-- Blanks are skipped before the first argument, before a value and behind an argument. -/
theorem reads_blanks_inCall (s : State) (start : Nat) (outer : List OpenArgument)
    (inner : OpenCall)
    (hmode : mode = .first ∨ mode = .next ∨ (∃ keyStart, mode = .key keyStart) ∨
      ∃ keyStart key, mode = .value keyStart key)
    (hblanks : IsBlanks w) (position : Nat) :
    (s.inCall start outer inner mode).Reads position w (s.inCall start outer inner mode) := by
  refine reads_blanks (fun position c hc => ?_) hblanks position
  rcases hmode with rfl | rfl | ⟨keyStart, rfl⟩ | ⟨keyStart, key, rfl⟩
  · have hclose : c ≠ ')' := ne_of_isAsciiBlank hc (by decide)
    simp [step, stepCall, stepKey, hc, hclose, Except.map]
  · simp [step, stepCall, stepNext, hc]
  · simp [step, stepCall, stepKey, hc, Except.map]
  · simp [step, stepCall, stepValue, hc, Except.map]

/-- Behind an argument, blanks change nothing. -/
theorem completes_nil (s : State) (start : Nat) (outer : List OpenArgument) (call : OpenCall)
    (position : Nat) : s.Completes start outer call .next position [] call := by
  intro after c hafter _
  have hblanks := reads_blanks_inCall s start outer call
    (Or.inr (Or.inl rfl)) hafter position
  rw [List.nil_append, hblanks.run_append, run_singleton, String.utf8Len_append, Nat.add_assoc]
  rfl

theorem step_nameChar (s : State) (start : Nat) (u : List Char) (position : Nat) (c : Char)
    (hc : isNameChar c = true) :
    State.step { s with mode := .name start (String.ofList u) } position c =
      .ok { s with mode := .name start (String.ofList (u ++ [c])) } := by
  simp [step, hc]

theorem step_keyChar (s : State) (start : Nat) (outer : List OpenArgument) (inner : OpenCall)
    (keyStart : Nat) (u : List Char) (position : Nat) (c : Char) (hc : isNameChar c = true) :
    (s.inCall start outer inner (.keyName keyStart (String.ofList u))).step position c =
      .ok (s.inCall start outer inner (.keyName keyStart (String.ofList (u ++ [c])))) := by
  simp [step, stepCall, hc, Except.map]

theorem step_tokenChar (s : State) (start : Nat) (outer : List OpenArgument) (inner : OpenCall)
    (keyStart : Nat) (key : String) (tokenStart : Nat) (u : List Char) (position : Nat) (c : Char)
    (hc : isDelimiter c = false) :
    (s.inCall start outer inner (.token keyStart key tokenStart (String.ofList u))).step position c =
      .ok (s.inCall start outer inner
        (.token keyStart key tokenStart (String.ofList (u ++ [c])))) := by
  have hdelimiter := isDelimiter_eq_false_iff.1 hc
  simp [step, stepCall, stepToken, hdelimiter]

/-- Behind the name of a section, blanks and the parenthesis that opens its arguments. -/
theorem reads_parenthesis (hblanks : IsBlanks w) (position : Nat) :
    State.Reads { s with mode := .name start name } position (w ++ ['('])
      (s.inCall start [] { name := name } .first) := by
  refine reads_sign { s with mode := .openParenthesis start name } (fun position c hc => ?_)
    (fun _ => ⟨rfl, rfl⟩) hblanks position
  have hname := isNameChar_eq_false_of_isAsciiBlank hc
  simp [step, stepOpenParenthesis, hname, hc]

/-- Behind the name of an argument, blanks and the colon before its value. -/
theorem reads_colon (hblanks : IsBlanks w) (position : Nat) :
    (s.inCall start outer inner (.keyName keyStart key)).Reads position (w ++ [':'])
      (s.inCall start outer inner (.value keyStart key)) := by
  refine reads_sign (s.inCall start outer inner (.colon keyStart key)) (fun position c hc => ?_)
    (fun _ => ⟨rfl, rfl⟩) hblanks position
  have hname := isNameChar_eq_false_of_isAsciiBlank hc
  simp [step, stepCall, stepColon, hname, hc, Except.map]

/-- Where a term is due, a name and a parenthesis open a call. -/
theorem reads_callHead (hmode : s.mode = .term) (hname : IsName u) (hblanks : IsBlanks w)
    (position : Nat) :
    s.Reads position (u ++ w ++ ['('])
      (s.inCall position [] { name := String.ofList u } .first) := by
  cases u with
  | nil => cases hname
  | cons c rest =>
    have hc := isNameChar_of_isNameStart hname.1
    have hblank := isAsciiBlank_eq_false_of_isNameChar hc
    have hdelimiter := isDelimiter_eq_false_iff.1 (isDelimiter_eq_false_of_isNameChar hc)
    have hfirst : s.step position c =
        .ok { s with mode := .name position (String.ofList [c]) } := by
      simp [step, hmode, stepTerm, hblank, hdelimiter, hname.1]
    have hrest := reads_run (step_nameChar s position) hname.2 [c] (position + c.utf8Size)
    rw [List.append_assoc, List.cons_append]
    exact Reads.cons hfirst (hrest.append (reads_parenthesis hblanks _))

/-- Where an argument is due, its name. -/
theorem reads_keyName (s : State) (start : Nat) (outer : List OpenArgument) (inner : OpenCall)
    (hmode : mode = .first ∨ ∃ keyStart, mode = .key keyStart) (hkey : IsName u)
    (position : Nat) :
    ∃ keyStart, (s.inCall start outer inner mode).Reads position u
      (s.inCall start outer inner (.keyName keyStart (String.ofList u))) := by
  cases u with
  | nil => cases hkey
  | cons c rest =>
    have hc := isNameChar_of_isNameStart hkey.1
    have hblank := isAsciiBlank_eq_false_of_isNameChar hc
    have hdelimiter := isDelimiter_eq_false_iff.1 (isDelimiter_eq_false_of_isNameChar hc)
    obtain ⟨keyStart, hfirst⟩ : ∃ keyStart, (s.inCall start outer inner mode).step position c =
        .ok (s.inCall start outer inner (.keyName keyStart (String.ofList [c]))) := by
      rcases hmode with rfl | ⟨keyStart, rfl⟩
      · exact ⟨position, by simp [step, stepCall, stepKey, hblank, hdelimiter, hkey.1, Except.map]⟩
      · exact ⟨keyStart, by simp [step, stepCall, stepKey, hblank, hkey.1, Except.map]⟩
    exact ⟨keyStart, Reads.cons hfirst
      (reads_run (step_keyChar s start outer inner keyStart) hkey.2 [c] _)⟩

/-- Where an argument is due, a name and a colon lead to its value. -/
theorem reads_key (s : State) (start : Nat) (outer : List OpenArgument) (inner : OpenCall)
    (hmode : mode = .first ∨ ∃ keyStart, mode = .key keyStart) (hkey : IsName u)
    (hblanks : IsBlanks w) (position : Nat) :
    ∃ keyStart, (s.inCall start outer inner mode).Reads position (u ++ w ++ [':'])
      (s.inCall start outer inner (.value keyStart (String.ofList u))) := by
  obtain ⟨keyStart, hname⟩ := reads_keyName s start outer inner hmode hkey position
  refine ⟨keyStart, ?_⟩
  rw [List.append_assoc]
  exact hname.append (reads_colon hblanks _)

/-- Where a value is due, characters that begin with no blank and hold no delimiter: a bare token,
or what still may become the name of a nested call. -/
theorem reads_token (hblank : Text.isAsciiBlank c = false)
    (hrun : ∀ d ∈ c :: w, isDelimiter d = false) (position : Nat) :
    (s.inCall start outer inner (.value keyStart key)).Reads position (c :: w)
      (s.inCall start outer inner (.token keyStart key position (String.ofList (c :: w)))) := by
  obtain ⟨hc, hrest⟩ := List.forall_mem_cons.1 hrun
  have hdelimiter := isDelimiter_eq_false_iff.1 hc
  have hfirst : (s.inCall start outer inner (.value keyStart key)).step position c =
      .ok (s.inCall start outer inner (.token keyStart key position (String.ofList [c]))) := by
    simp [step, stepCall, stepValue, hblank, hdelimiter, Except.map]
  exact Reads.cons hfirst
    (reads_run (step_tokenChar s start outer inner keyStart key position) hrest [c] _)

/-- Where a value is due, a name and a parenthesis open a nested call. -/
theorem reads_nestedHead (s : State) (start : Nat) (outer : List OpenArgument) (inner : OpenCall)
    (keyStart : Nat) (key : String) (hname : IsName u) (hblanks : IsBlanks w) (position : Nat) :
    (s.inCall start outer inner (.value keyStart key)).Reads position (u ++ w ++ ['('])
      (s.inCall start (⟨inner, key, keyStart⟩ :: outer) { name := String.ofList u } .first) := by
  have hnested : nestedName? (String.ofList (u ++ w)) = some (String.ofList u) :=
    nestedName?_eq_some_iff.2 ⟨u, w, rfl, hname, hblanks, rfl⟩
  have hrun : ∀ d ∈ u ++ w, isDelimiter d = false := by
    intro d hd
    rcases List.mem_append.1 hd with hd | hd
    · exact isDelimiter_eq_false_of_isNameChar (hname.isNameChar d hd)
    · exact isDelimiter_eq_false_of_isAsciiBlank (hblanks d hd)
  have hclose : (s.inCall start outer inner
        (.token keyStart key position (String.ofList (u ++ w)))).step
          (position + utf8Len (u ++ w)) '(' =
      .ok (s.inCall start (⟨inner, key, keyStart⟩ :: outer)
        { name := String.ofList u } .first) := by
    simp [step, stepCall, stepToken, hnested, -String.ofList_append]
  cases u with
  | nil => cases hname
  | cons c rest =>
    have hblank := isAsciiBlank_eq_false_of_isNameChar (isNameChar_of_isNameStart hname.1)
    exact (reads_token hblank hrun position).append (reads_singleton hclose)

theorem insert_of_not_contains {v : Value} (h : Keyed.contains inner.args key = false) :
    inner.insert key keyStart v = .ok { inner with args := Keyed.insert key v inner.args } := by
  unfold OpenCall.insert
  rw [h]
  rfl

/-- A token that holds more than blanks has a value. -/
theorem insertToken_of_ne_nil (hkept : w.filter (!Text.isBlank ·) ≠ []) :
    inner.insertToken key keyStart tokenStart (String.ofList w) =
      inner.insert key keyStart (Value.ofToken (w.filter (!Text.isBlank ·))) := by
  unfold OpenCall.insertToken
  rw [String.toList_ofList]
  cases hfilter : w.filter (!Text.isBlank ·) with
  | nil => exact absurd hfilter hkept
  | cons first rest => rfl

/-- Where a value is due, a run without delimiters is kept from its first character on that is no
ASCII blank. -/
theorem exists_reads_token (s : State) (start : Nat) (outer : List OpenArgument) (inner : OpenCall)
    (keyStart : Nat) (key : String) (hrun : ∀ c ∈ w, isDelimiter c = false)
    (hkept : w.filter (!Text.isBlank ·) ≠ []) (position : Nat) :
    ∃ tokenStart raw, raw.filter (!Text.isBlank ·) = w.filter (!Text.isBlank ·) ∧
      (s.inCall start outer inner (.value keyStart key)).Reads position w
        (s.inCall start outer inner (.token keyStart key tokenStart (String.ofList raw))) := by
  induction w generalizing position with
  | nil => exact absurd rfl hkept
  | cons c rest ih =>
    cases hc : Text.isAsciiBlank c with
    | false => exact ⟨position, c :: rest, rfl, reads_token hc hrun position⟩
    | true =>
      have hstay : (s.inCall start outer inner (.value keyStart key)).step position c =
          .ok (s.inCall start outer inner (.value keyStart key)) := by
        simp [step, stepCall, stepValue, hc, Except.map]
      have hfilter : (c :: rest).filter (!Text.isBlank ·) = rest.filter (!Text.isBlank ·) := by
        simp [Text.isBlank_of_isAsciiBlank hc]
      rw [hfilter] at hkept ⊢
      obtain ⟨tokenStart, raw, hraw, hreads⟩ :=
        ih (List.forall_mem_cons.1 hrun).2 hkept (position + c.utf8Size)
      exact ⟨tokenStart, raw, hraw, Reads.cons hstay hreads⟩

/-- A token runs up to the comma or parenthesis that ends it. The blanks before that have become a
part of the run, and are dropped with those inside of it. -/
theorem completes_token (hrun : ∀ c ∈ w, isDelimiter c = false)
    (hsome : ∃ c ∈ w, Text.isBlank c = false) (hnew : Keyed.contains inner.args key = false)
    (position : Nat) :
    s.Completes start outer inner (.value keyStart key) position w
      { inner with
        args := Keyed.insert key (Value.ofToken (w.filter (!Text.isBlank ·))) inner.args } := by
  intro after c hafter hc
  have hall : ∀ d ∈ w ++ after, isDelimiter d = false :=
    List.forall_mem_append.2
      ⟨hrun, fun d hd => isDelimiter_eq_false_of_isAsciiBlank (hafter d hd)⟩
  have hfilter : (w ++ after).filter (!Text.isBlank ·) = w.filter (!Text.isBlank ·) := by
    rw [List.filter_append, hafter.filter_eq_nil, List.append_nil]
  have hkept := filter_isBlank_ne_nil_iff.2 hsome
  rw [← hfilter] at hkept ⊢
  obtain ⟨tokenStart, raw, hraw, hreads⟩ :=
    exists_reads_token s start outer inner keyStart key hall hkept position
  rw [← hraw] at hkept ⊢
  have hend : ∀ position, (s.inCall start outer inner
        (.token keyStart key tokenStart (String.ofList raw))).step position c =
      (inner.insertToken key keyStart tokenStart (String.ofList raw)).bind fun call =>
        s.stepNext start outer call position c := by
    intro position
    rcases hc with rfl | rfl
    · rfl
    · rfl
  rw [hreads.run_append, run_singleton, hend, insertToken_of_ne_nil hkept,
    insert_of_not_contains hnew, String.utf8Len_append (w ++ after) [c], Nat.add_assoc]
  rfl

theorem reads_close (s : State) (start : Nat) (outer : List OpenArgument) (inner : OpenCall)
    (position : Nat) :
    (s.inCall start outer inner .first).run position [')'] =
      (s.endCall start (position + utf8Len [')']) outer inner).map
        fun next => (next, position + utf8Len [')']) := by
  rw [run_singleton]
  rfl

theorem step_openParenthesis (hmode : s.mode = .term) (position : Nat) :
    s.step position '(' = .ok ⟨s.pending :: s.groups, none, .term⟩ := by
  obtain ⟨groups, pending, mode⟩ := s
  cases hmode
  rfl

theorem step_sign (s : State) (left : Tree) (joiner : Joiner) (position : Nat) :
    State.step { s with mode := .operator left } position joiner.sign =
      .ok { s with pending := some (left, joiner), mode := .term } := by
  cases joiner with
  | and => rfl
  | or => rfl

theorem stepNext_comma (s : State) (start : Nat) (outer : List OpenArgument) (call : OpenCall)
    (position : Nat) :
    s.stepNext start outer call position ',' =
      .ok (s.inCall start outer call (.key (position + 1))) := rfl

theorem stepNext_close (s : State) (start : Nat) (outer : List OpenArgument) (call : OpenCall)
    (position : Nat) :
    s.stepNext start outer call position ')' = s.endCall start (position + 1) outer call := rfl

/-- The end of a nested call files it as the value of the argument that waits for it. -/
theorem endCall_nested {args : List (String × Value)}
    (hnew : Keyed.contains inner.args key = false) (position : Nat) :
    s.endCall start position (⟨inner, key, keyStart⟩ :: outer) ⟨name, args⟩ =
      .ok (s.inCall start outer
        { inner with args := Keyed.insert key (.call name args) inner.args } .next) := by
  have hinsert : inner.insert key keyStart (.call name args) =
      .ok { inner with args := Keyed.insert key (.call name args) inner.args } :=
    insert_of_not_contains hnew
  simp only [endCall, hinsert, Except.map]

end State

/-- What the reader does with the characters of a phrase, wherever it stands. An argument is filed
only once the comma or parenthesis behind it has been read, since a bare token ends no sooner. -/
def Phrase.IsRead (w : List Char) : Phrase → Prop
  | .call name args =>
    ∃ head before body, w = head ++ before ++ '(' :: body ∧ IsName head ∧ IsBlanks before ∧
      name = String.ofList head ∧ ∀ (s : State) start outer position,
        (s.inCall start outer { name := name } .first).run position body =
          (s.endCall start (position + utf8Len body) outer ⟨name, args⟩).map
            fun next => (next, position + utf8Len body)
  | .arguments args =>
    (args.map Prod.fst).Nodup → ∀ (s : State) start outer name position,
      s.Completes start outer { name := name } .first position w ⟨name, Keyed.ofList args⟩
  | .argument key v =>
    ∀ (s : State) start outer inner mode position,
      (mode = .first ∨ ∃ keyStart, mode = .key keyStart) →
      Keyed.contains inner.args key = false →
      s.Completes start outer inner mode position w
        { inner with args := Keyed.insert key v inner.args }
  | .value v =>
    ∀ (s : State) start outer inner keyStart key position, Keyed.contains inner.args key = false →
      s.Completes start outer inner (.value keyStart key) position w
        { inner with args := Keyed.insert key v inner.args }
  | .term start tree => ∀ s : State, s.mode = .term → s.Reads start w (s.endTerm tree)
  | .chain start tree =>
    ∀ s : State, s.mode = .term → s.pending = none →
      s.Reads start w { s with mode := .operator tree }

namespace Phrase

open State

variable {w u before after inside first last : List Char} {name key : String} {v : Value}
  {args : List (String × Value)} {start : Nat} {tree left right : Tree}

theorem isRead_emptyCall (hname : IsName u) (hbefore : IsBlanks before)
    (hinside : IsBlanks inside) :
    (Phrase.call (String.ofList u) []).IsRead (u ++ before ++ '(' :: inside ++ [')']) := by
  refine ⟨u, before, inside ++ [')'], by simp, hname, hbefore, rfl, ?_⟩
  intro s start outer position
  have hskip := reads_blanks_inCall s start outer { name := String.ofList u } (Or.inl rfl) hinside
    position
  rw [hskip.run_append, reads_close, String.utf8Len_append, Nat.add_assoc]

theorem isRead_call (hname : IsName u) (hbefore : IsBlanks before) (hfirst : IsBlanks first)
    (hargs : (Phrase.arguments args).IsRead w) (hlast : IsBlanks last)
    (hdistinct : (args.map Prod.fst).Nodup) :
    (Phrase.call (String.ofList u) (Keyed.ofList args)).IsRead
      (u ++ before ++ '(' :: first ++ w ++ last ++ [')']) := by
  refine ⟨u, before, first ++ (w ++ last ++ [')']), by simp, hname, hbefore, rfl, ?_⟩
  intro s start outer position
  have hskip := reads_blanks_inCall s start outer { name := String.ofList u } (Or.inl rfl) hfirst
    position
  have hclose := hargs hdistinct s start outer (String.ofList u) (position + utf8Len first) last ')'
    hlast (Or.inr rfl)
  have hstop : utf8Len (first ++ (w ++ last ++ [')'])) =
      utf8Len first + utf8Len (w ++ last) + 1 := by
    rw [String.utf8Len_append first, String.utf8Len_append (w ++ last), Nat.add_assoc]
    rfl
  rw [hskip.run_append, hclose, stepNext_close, hstop, String.utf8Len_append (w ++ last)]
  simp only [Nat.add_assoc]
  rfl

theorem isRead_firstArgument (h : (Phrase.argument key v).IsRead w) :
    (Phrase.arguments [(key, v)]).IsRead w := by
  intro _ s start outer name position
  exact h s start outer { name := name } .first position (Or.inl rfl) rfl

theorem isRead_furtherArgument (hargs : (Phrase.arguments args).IsRead u)
    (hbefore : IsBlanks before) (hafter : IsBlanks after) (h : (Phrase.argument key v).IsRead w) :
    (Phrase.arguments (args ++ [(key, v)])).IsRead (u ++ before ++ ',' :: after ++ w) := by
  intro hdistinct s start outer name position
  rw [List.map_append] at hdistinct
  obtain ⟨hdistinct, _, hnew⟩ := List.nodup_append.1 hdistinct
  have hkey : key ∉ args.map Prod.fst := fun hmem => hnew key hmem key (by simp) rfl
  have hcomma := hargs hdistinct s start outer name position before ',' hbefore (Or.inl rfl)
  rw [stepNext_comma] at hcomma
  have hskip := reads_blanks_inCall s start outer ⟨name, Keyed.ofList args⟩
    (Or.inr (Or.inr (Or.inl ⟨position + utf8Len (u ++ before) + 1, rfl⟩))) hafter
    (position + utf8Len (u ++ before ++ [',']))
  have hlead := Reads.append (w := after) hcomma hskip
  have hsplit : u ++ before ++ ',' :: after ++ w = u ++ before ++ [','] ++ after ++ w := by simp
  rw [hsplit, Keyed.ofList_concat]
  exact Completes.prepend hlead (h s start outer ⟨name, Keyed.ofList args⟩ _ _ (Or.inr ⟨_, rfl⟩)
    (Keyed.contains_ofList_eq_false hkey))

theorem isRead_argument (hkey : IsName u) (hbefore : IsBlanks before) (hafter : IsBlanks after)
    (h : (Phrase.value v).IsRead w) :
    (Phrase.argument (String.ofList u) v).IsRead (u ++ before ++ ':' :: after ++ w) := by
  intro s start outer inner mode position hmode hnew
  obtain ⟨keyStart, hcolon⟩ := reads_key s start outer inner hmode hkey hbefore position
  have hskip := reads_blanks_inCall s start outer inner
    (Or.inr (Or.inr (Or.inr ⟨keyStart, String.ofList u, rfl⟩))) hafter
    (position + utf8Len (u ++ before ++ [':']))
  have hsplit : u ++ before ++ ':' :: after ++ w = u ++ before ++ [':'] ++ after ++ w := by simp
  rw [hsplit]
  exact Completes.prepend (hcolon.append hskip) (h s start outer inner keyStart _ _ hnew)

theorem isRead_nested (h : (Phrase.call name args).IsRead w) :
    (Phrase.value (.call name args)).IsRead w := by
  obtain ⟨head, before, body, rfl, hhead, hbefore, rfl, hbody⟩ := h
  intro s start outer inner keyStart key position hnew
  have hopen := reads_nestedHead s start outer inner keyStart key hhead hbefore position
  have hcall := hbody s start (⟨inner, key, keyStart⟩ :: outer)
    (position + utf8Len (head ++ before ++ ['(']))
  rw [endCall_nested hnew] at hcall
  have hread := Reads.append (w := body) hopen hcall
  have hsplit : head ++ before ++ '(' :: body = head ++ before ++ ['('] ++ body ++ [] := by simp
  rw [hsplit]
  exact Completes.prepend hread (completes_nil s start outer _ _)

theorem isRead_term (h : (Phrase.call name args).IsRead w) :
    (Phrase.term start (.call name args ⟨start, start + utf8Len w⟩)).IsRead w := by
  obtain ⟨head, before, body, rfl, hhead, hbefore, rfl, hbody⟩ := h
  intro s hmode
  have hopen := reads_callHead hmode hhead hbefore start
  have hcall := hbody s start [] (start + utf8Len (head ++ before ++ ['(']))
  have hread := Reads.append (w := body) hopen hcall
  have hsplit : head ++ before ++ '(' :: body = head ++ before ++ ['('] ++ body := by simp
  rw [hsplit, String.utf8Len_append (head ++ before ++ ['(']), ← Nat.add_assoc]
  exact hread

/-- In parentheses a chain is read without the left side that waits outside of them. -/
theorem isRead_parentheses (hbefore : IsBlanks before)
    (h : (Phrase.chain (start + utf8Len ('(' :: before)) tree).IsRead w) (hafter : IsBlanks after) :
    (Phrase.term start tree).IsRead ('(' :: before ++ w ++ after ++ [')']) := by
  intro s hmode
  have hlead := Reads.cons (step_openParenthesis hmode start) (reads_blanks_term rfl hbefore _)
  have hchain := hlead.append (h _ rfl rfl)
  exact (hchain.append (reads_blanks_operator rfl hafter _)).append (reads_singleton rfl)

theorem isRead_single (h : (Phrase.term start tree).IsRead w) :
    (Phrase.chain start tree).IsRead w := by
  intro s hmode hpending
  obtain ⟨groups, pending, mode⟩ := s
  cases hpending
  exact h _ hmode

theorem isRead_join {joiner : Joiner} (hleft : (Phrase.chain start left).IsRead u)
    (hbefore : IsBlanks before) (hafter : IsBlanks after)
    (hright :
      (Phrase.term (start + utf8Len (u ++ before ++ joiner.sign :: after)) right).IsRead w) :
    (Phrase.chain start (.join joiner left right)).IsRead
      (u ++ before ++ joiner.sign :: after ++ w) := by
  intro s hmode hpending
  have hbehind := (hleft s hmode hpending).append (reads_blanks_operator rfl hbefore _)
  have hahead := hbehind.append
    (Reads.cons (step_sign s left joiner _) (reads_blanks_term rfl hafter _))
  have hterm := hahead.append (hright _ rfl)
  obtain ⟨groups, pending, mode⟩ := s
  cases hpending
  exact hterm

/-- Induction on the way that the phrase is written. -/
theorem isRead_of_spells {p : Phrase} (h : Spells w p) : p.IsRead w := by
  induction h with
  | emptyCall hname hbefore hinside => exact isRead_emptyCall hname hbefore hinside
  | call hname hbefore hfirst _ hlast hdistinct ih =>
    exact isRead_call hname hbefore hfirst ih hlast hdistinct
  | firstArgument _ ih => exact isRead_firstArgument ih
  | furtherArgument _ hbefore hafter _ ihArgs ih =>
    exact isRead_furtherArgument ihArgs hbefore hafter ih
  | argument hkey hbefore hafter _ ih => exact isRead_argument hkey hbefore hafter ih
  | nested _ ih => exact isRead_nested ih
  | token hrun hsome =>
    intro s start outer inner keyStart key position hnew
    exact completes_token hrun hsome hnew position
  | term _ ih => exact isRead_term ih
  | parentheses hbefore _ hafter ih => exact isRead_parentheses hbefore ih hafter
  | single _ ih => exact isRead_single ih
  | join _ hbefore hafter _ ihLeft ihRight => exact isRead_join ihLeft hbefore hafter ihRight

end Phrase

/-- A text that is an expression is read to the tree that it spells. -/
theorem read_of_isExpression {text : String} {tree : Tree} (h : IsExpression text.toList tree) :
    read text = .ok tree := by
  obtain ⟨before, w, after, htext, hbefore, hafter, hspells⟩ := h
  have hlead : State.Reads {} 0 before {} := State.reads_blanks_term rfl hbefore 0
  have hchain := Phrase.isRead_of_spells hspells {} rfl rfl
  rw [← Nat.zero_add (utf8Len before)] at hchain
  have hwhole := (hlead.append hchain).append (State.reads_blanks_operator rfl hafter _)
  unfold State.Reads at hwhole
  unfold read
  rw [htext, hwhole]
  rfl

theorem read_of_spells {text : String} {tree : Tree} (h : Spells text.toList (.chain 0 tree)) :
    read text = .ok tree :=
  read_of_isExpression ⟨[], text.toList, [], by simp, IsBlanks.nil, IsBlanks.nil, h⟩

end Almanac.Expression

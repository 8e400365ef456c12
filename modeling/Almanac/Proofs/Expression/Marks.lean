import Almanac.Proofs.Expression.Progress

/-!
Where the reader tells of a problem. The places that it keeps in mind are places between the
characters that it has read, and what it says to have found is what stands at the place that it
points to.
-/

namespace Almanac.Expression

open String (utf8Len)

/-- A character of the text begins at that byte, or the text ends there. -/
def IsBoundary (text : List Char) (position : Nat) : Prop :=
  ∃ before, before <+: text ∧ position = utf8Len before

/-- What a reader finds in front of the rest of a text. -/
def Found.inFront : List Char → Found
  | [] => .endOfInput
  | c :: _ => .character c

theorem Found.inFront_eq_endOfInput_iff {rest : List Char} :
    Found.inFront rest = .endOfInput ↔ utf8Len rest = 0 := by
  cases rest with
  | nil => simp [Found.inFront]
  | cons c rest =>
    have hpos := c.utf8Size_pos
    simp only [Found.inFront, String.utf8Len_cons, reduceCtorEq, false_iff]
    omega

/-- A problem at a place within the characters `text`, with `rest` behind them. Unless it is a
repeated argument, what is found stands there. -/
def Problem.IsToldIn (text rest : List Char) (p : Problem) : Prop :=
  ∃ before after, text = before ++ after ∧ p.position = utf8Len before ∧
    ((∃ key, p.expected = .newArgument ∧ p.found = .repeatedArgument key) ∨
      p.found = Found.inFront (after ++ rest))

/-- A result that is as it should be, or a problem that is told in the text. -/
def Tells {α : Type} (text rest : List Char) (good : α → Prop) : Except Problem α → Prop
  | .ok a => good a
  | .error p => p.IsToldIn text rest

/-- The places that are kept in mind within a call, the characters so far being `text`. -/
def CallMode.IsMarked (text : List Char) : CallMode → Prop
  | .first | .next => True
  | .key start | .keyName start _ | .value start _ => IsBoundary text start
  | .colon start _ => IsBoundary text start ∧ ∃ c ∈ text.getLast?, Text.isAsciiBlank c = true
  | .token start _ tokenStart raw =>
    IsBoundary text start ∧ ∃ before, text = before ++ raw.toList ∧ tokenStart = utf8Len before

/-- The places that are kept in mind, the characters so far being `text`. -/
def State.IsMarked (text : List Char) (s : State) : Prop :=
  match s.mode with
  | .call _ outer _ mode =>
    (∀ argument ∈ outer, IsBoundary text argument.keyStart) ∧ mode.IsMarked text
  | _ => True

section

variable {α β : Type} {t u rest w : List Char} {s last : State} {position start keyStart : Nat}
  {c : Char} {outer : List OpenArgument} {inner call : OpenCall} {mode : CallMode}
  {key raw : String} {p : Problem} {good : α → Prop} {fine : β → Prop}

theorem IsBoundary.append (h : IsBoundary t position) (u : List Char) :
    IsBoundary (t ++ u) position := by
  obtain ⟨before, hbefore, hposition⟩ := h
  exact ⟨before, hbefore.trans (List.prefix_append t u), hposition⟩

theorem isBoundary_utf8Len (t : List Char) : IsBoundary t (utf8Len t) :=
  ⟨t, List.prefix_rfl, rfl⟩

theorem Tells.bind {result : Except Problem α} {next : α → Except Problem β}
    (h : Tells t rest good result) (hnext : ∀ a, good a → Tells t rest fine (next a)) :
    Tells t rest fine (result.bind next) := by
  cases result with
  | error p => exact h
  | ok a => exact hnext a h

theorem Tells.map {result : Except Problem α} {f : α → β} (h : Tells t rest good result)
    (hf : ∀ a, good a → fine (f a)) : Tells t rest fine (result.map f) := by
  cases result with
  | error p => exact h
  | ok a => exact hf a h

/-- What is found is the character that comes next. -/
theorem tells_unexpected (t rest : List Char) (expected : Expected) (c : Char) :
    Tells t (c :: rest) good (unexpected (utf8Len t) expected c) :=
  ⟨t, [], (List.append_nil t).symm, rfl, Or.inr rfl⟩

theorem tells_unfinished (t : List Char) (expected : Expected) :
    Tells t [] good (unfinished (utf8Len t) expected) :=
  ⟨t, [], (List.append_nil t).symm, rfl, Or.inr rfl⟩

theorem tells_insert (h : IsBoundary t keyStart) (v : Value) :
    Tells t rest (fun _ => True) (inner.insert key keyStart v) := by
  unfold OpenCall.insert
  split
  · obtain ⟨before, ⟨after, rfl⟩, rfl⟩ := h
    exact ⟨before, after, rfl, rfl, Or.inl ⟨key, rfl, rfl⟩⟩
  · trivial

/-- A token of blanks is told where it begins. -/
theorem tells_insertToken (h : IsBoundary (u ++ raw.toList) keyStart) :
    Tells (u ++ raw.toList) rest (fun _ => True)
      (inner.insertToken key keyStart (utf8Len u) raw) := by
  simp only [OpenCall.insertToken]
  split
  · rename_i first tail _ hraw
    exact ⟨u, raw.toList, rfl, rfl, Or.inr (by rw [hraw]; rfl)⟩
  · exact tells_insert h _

theorem tells_stepKey (hstart : IsBoundary t start) (hblank : mode.IsMarked (t ++ [c])) :
    Tells t (c :: rest) (CallMode.IsMarked (t ++ [c])) (stepKey start (utf8Len t) c mode) := by
  unfold stepKey
  split_ifs
  · exact hblank
  · exact hstart.append [c]
  · exact tells_unexpected t rest _ c

theorem tells_stepColon (hstart : IsBoundary t start) :
    Tells t (c :: rest) (CallMode.IsMarked (t ++ [c])) (stepColon start key (utf8Len t) c) := by
  unfold stepColon
  split_ifs with hc
  · exact ⟨hstart.append [c], c, by simp, hc⟩
  · exact hstart.append [c]
  · exact tells_unexpected t rest _ c

theorem tells_stepValue (hstart : IsBoundary t start) :
    Tells t (c :: rest) (CallMode.IsMarked (t ++ [c])) (stepValue start key (utf8Len t) c) := by
  unfold stepValue
  split_ifs
  · exact hstart.append [c]
  · exact tells_unexpected t rest _ c
  · exact tells_unexpected t rest _ c
  · exact ⟨hstart.append [c], t, by simp, rfl⟩

theorem tells_endCall {stop : Nat} (houter : ∀ argument ∈ outer, IsBoundary t argument.keyStart) :
    Tells t (c :: rest) (State.IsMarked (t ++ [c])) (s.endCall start stop outer inner) := by
  cases outer with
  | nil => exact trivial
  | cons argument outer =>
    obtain ⟨hargument, houter⟩ := List.forall_mem_cons.1 houter
    refine (tells_insert hargument _).map fun call _ => ⟨fun waiting hwaiting => ?_, trivial⟩
    exact (houter waiting hwaiting).append [c]

theorem tells_stepNext (houter : ∀ argument ∈ outer, IsBoundary t argument.keyStart) :
    Tells t (c :: rest) (State.IsMarked (t ++ [c]))
      (s.stepNext start outer inner (utf8Len t) c) := by
  have hlater : ∀ argument ∈ outer, IsBoundary (t ++ [c]) argument.keyStart :=
    fun argument hargument => (houter argument hargument).append [c]
  unfold State.stepNext
  split_ifs with _ hcomma
  · exact ⟨hlater, trivial⟩
  · refine ⟨hlater, t ++ [c], List.prefix_rfl, ?_⟩
    rw [String.utf8Len_append, hcomma]
    rfl
  · exact tells_endCall houter
  · exact tells_unexpected t rest _ c

theorem tells_stepToken
    (houter : ∀ argument ∈ outer, IsBoundary (u ++ raw.toList) argument.keyStart)
    (hkey : IsBoundary (u ++ raw.toList) keyStart) :
    Tells (u ++ raw.toList) (c :: rest) (State.IsMarked (u ++ raw.toList ++ [c]))
      (s.stepToken start outer inner keyStart key (utf8Len u) raw
        (utf8Len (u ++ raw.toList)) c) := by
  have hlater : ∀ argument ∈ outer, IsBoundary (u ++ raw.toList ++ [c]) argument.keyStart :=
    fun argument hargument => (houter argument hargument).append [c]
  unfold State.stepToken
  split_ifs
  · exact (tells_insertToken hkey).bind fun call _ => tells_stepNext houter
  · split
    · exact ⟨List.forall_mem_cons.2 ⟨hkey.append [c], hlater⟩, trivial⟩
    · exact tells_unexpected _ rest _ c
  · exact tells_unexpected _ rest _ c
  · exact ⟨hlater, hkey.append [c], u, by simp, rfl⟩

theorem tells_stepCall (houter : ∀ argument ∈ outer, IsBoundary t argument.keyStart)
    (hmode : mode.IsMarked t) :
    Tells t (c :: rest) (State.IsMarked (t ++ [c]))
      (s.stepCall start outer inner mode (utf8Len t) c) := by
  have hlater : ∀ argument ∈ outer, IsBoundary (t ++ [c]) argument.keyStart :=
    fun argument hargument => (houter argument hargument).append [c]
  -- A step that stays in the innermost call keeps the places outside of it.
  have hstay : ∀ result : Except Problem CallMode,
      Tells t (c :: rest) (CallMode.IsMarked (t ++ [c])) result →
      Tells t (c :: rest) (State.IsMarked (t ++ [c]))
        (result.map fun mode => { s with mode := .call start outer inner mode }) :=
    fun result hresult => hresult.map fun later hmarked => ⟨hlater, hmarked⟩
  cases mode with
  | first =>
    simp only [State.stepCall]
    split_ifs
    · exact tells_endCall houter
    · exact hstay _ (tells_stepKey (isBoundary_utf8Len t) trivial)
  | key => exact hstay _ (tells_stepKey hmode (hmode.append [c]))
  | keyName =>
    simp only [State.stepCall]
    split_ifs
    · exact hstay (.ok _) (hmode.append [c])
    · exact hstay _ (tells_stepColon hmode)
  | colon => exact hstay _ (tells_stepColon hmode.1)
  | value => exact hstay _ (tells_stepValue hmode)
  | token =>
    obtain ⟨hkey, u, rfl, rfl⟩ := hmode
    exact tells_stepToken houter hkey
  | next => exact tells_stepNext houter

theorem tells_stepOpenParenthesis :
    Tells t (c :: rest) (State.IsMarked (t ++ [c]))
      (s.stepOpenParenthesis start key (utf8Len t) c) := by
  unfold State.stepOpenParenthesis
  split_ifs
  · trivial
  · exact ⟨List.forall_mem_nil _, trivial⟩
  · exact tells_unexpected t rest _ c

theorem tells_stepOperator (groups : List Pending) (pending : Pending) (tree : Tree) :
    Tells t (c :: rest) (State.IsMarked (t ++ [c]))
      (State.stepOperator ⟨groups, pending, .operator tree⟩ tree (utf8Len t) c) := by
  unfold State.stepOperator
  split
  · trivial
  · split
    · trivial
    · exact tells_unexpected t rest _ c
    · split
      · trivial
      · exact tells_unexpected t rest _ c

/-- Every character is either taken, and the places kept in mind are still places of the text, or
refused at such a place. -/
theorem tells_step (h : s.IsMarked t) :
    Tells t (c :: rest) (State.IsMarked (t ++ [c])) (s.step (utf8Len t) c) := by
  obtain ⟨groups, pending, mode⟩ := s
  cases mode with
  | term =>
    simp only [State.step, State.stepTerm]
    split_ifs
    · trivial
    · trivial
    · trivial
    · exact tells_unexpected t rest _ c
  | name =>
    simp only [State.step]
    split_ifs
    · trivial
    · exact tells_stepOpenParenthesis
  | openParenthesis => exact tells_stepOpenParenthesis
  | call => exact tells_stepCall h.1 h.2
  | operator tree => exact tells_stepOperator groups pending tree

theorem tells_finish (h : s.IsMarked t) :
    Tells t [] (fun _ => True) (s.finish (utf8Len t)) := by
  obtain ⟨groups, pending, mode⟩ := s
  cases mode with
  | term | name | openParenthesis => exact tells_unfinished t _
  | operator tree =>
    simp only [State.finish]
    split_ifs
    · trivial
    · exact tells_unfinished t _
  | call start outer inner mode =>
    obtain ⟨-, hmode⟩ := h
    cases mode with
    | token =>
      obtain ⟨hkey, u, rfl, rfl⟩ := hmode
      exact (tells_insertToken hkey).bind fun _ _ => tells_unfinished _ _
    | _ => exact tells_unfinished t _

theorem utf8Len_concat (t : List Char) (c : Char) :
    utf8Len t + c.utf8Size = utf8Len (t ++ [c]) := by
  rw [String.utf8Len_append, String.utf8Len_cons, String.utf8Len_nil, Nat.zero_add]

/-- Induction on the characters. -/
theorem State.IsMarked.reads (h : s.IsMarked t) (hreads : s.Reads (utf8Len t) w last) :
    last.IsMarked (t ++ w) := by
  induction w generalizing s t with
  | nil =>
    cases hreads
    rw [List.append_nil]
    exact h
  | cons c rest ih =>
    obtain ⟨next, hnext, hrest⟩ := State.reads_cons_iff.1 hreads
    have hstep : Tells t (c :: rest) (State.IsMarked (t ++ [c])) (s.step (utf8Len t) c) :=
      tells_step h
    rw [hnext] at hstep
    rw [utf8Len_concat] at hrest
    rw [← List.singleton_append, ← List.append_assoc]
    exact ih hstep hrest

/-- A problem is told within the characters that have been read when it shows. Induction on the
characters. -/
theorem State.IsMarked.exists_isToldIn (h : s.IsMarked t)
    (herror : s.readOn (utf8Len t) w = .error p) :
    ∃ u rest, w = u ++ rest ∧ (∃ reached, s.Reads (utf8Len t) u reached) ∧
      p.IsToldIn (t ++ u) rest := by
  induction w generalizing s t with
  | nil =>
    have hfinish := tells_finish h
    change s.finish (utf8Len t) = .error p at herror
    rw [herror] at hfinish
    exact ⟨[], [], rfl, ⟨s, Reads.nil s _⟩, by rwa [List.append_nil]⟩
  | cons c rest ih =>
    have hstep : Tells t (c :: rest) (State.IsMarked (t ++ [c])) (s.step (utf8Len t) c) :=
      tells_step h
    cases hnext : s.step (utf8Len t) c with
    | error problem =>
      rw [readOn, run, hnext] at herror
      rw [hnext] at hstep
      cases herror
      exact ⟨[], c :: rest, rfl, ⟨s, Reads.nil s _⟩, by rwa [List.append_nil]⟩
    | ok next =>
      rw [← List.singleton_append, (reads_singleton hnext).readOn_append,
        ← String.utf8Len_append] at herror
      rw [hnext] at hstep
      obtain ⟨u, rest, rfl, ⟨reached, hreached⟩, htold⟩ := ih hstep herror
      rw [← utf8Len_concat] at hreached
      exact ⟨c :: u, rest, rfl, ⟨reached, Reads.cons hnext hreached⟩, by simpa using htold⟩

end

end Almanac.Expression

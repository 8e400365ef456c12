import Mathlib.Data.Set.Finite.Basic
import Almanac.Proofs.Expression.Progress

/-!
Which states of the reader lead to an expression. From everywhere some characters do, with one
exception: an argument whose name is written in full can no longer be filed when its call has that
name already. Such an argument stays open to the end of the text.
-/

namespace Almanac.Expression

open String (utf8Len)

/-- The argument of the innermost call whose name is written in full and which is not filed yet. -/
def CallMode.openArgument? (inner : OpenCall) : CallMode → Option OpenArgument
  | .colon start name | .value start name | .token start name _ _ => some ⟨inner, name, start⟩
  | .first | .key _ | .keyName _ _ | .next => none

/-- The arguments whose names are written in full and which are not filed yet, from the inside out.
An argument is filed behind its value. -/
def State.openArguments (s : State) : List OpenArgument :=
  match s.mode with
  | .call _ outer inner mode => (mode.openArgument? inner).toList ++ outer
  | _ => []

/-- The call has an argument of that name already. -/
def OpenArgument.IsRepeated (argument : OpenArgument) : Prop :=
  Keyed.contains argument.call.args argument.key = true

theorem OpenArgument.not_isRepeated_iff {argument : OpenArgument} :
    ¬ argument.IsRepeated ↔ Keyed.contains argument.call.args argument.key = false :=
  Iff.of_eq (Bool.not_eq_true _)

namespace State

variable {s reached next last : State} {position start keyStart tokenStart : Nat}
  {u w : List Char} {c : Char} {tree : Tree} {outer : List OpenArgument} {inner call : OpenCall}
  {mode : CallMode} {name key : String} {argument : OpenArgument}

theorem mem_openArguments_of_endCall {stop : Nat} (hmem : argument ∈ outer)
    (hrepeated : argument.IsRepeated) (hstep : s.endCall start stop outer inner = .ok next) :
    argument ∈ next.openArguments := by
  cases outer with
  | nil => cases hmem
  | cons waiting outer =>
    obtain ⟨call, hinsert, rfl⟩ := exists_of_map_eq_ok hstep
    obtain ⟨hnew, -⟩ := OpenCall.insert_eq_ok hinsert
    rcases List.mem_cons.1 hmem with rfl | hmem
    · exact absurd hrepeated (OpenArgument.not_isRepeated_iff.2 hnew)
    · exact hmem

theorem mem_openArguments_of_stepNext (hmem : argument ∈ outer) (hrepeated : argument.IsRepeated)
    (hstep : s.stepNext start outer inner position c = .ok next) :
    argument ∈ next.openArguments := by
  unfold stepNext at hstep
  split_ifs at hstep
  · cases hstep
    exact hmem
  · cases hstep
    exact hmem
  · exact mem_openArguments_of_endCall hmem hrepeated hstep
  · exact absurd hstep not_unexpected_eq_ok

/-- A bare token is the value of a new argument, or not a value at all. -/
theorem contains_eq_false_of_insertToken {raw : String}
    (h : inner.insertToken key keyStart tokenStart raw = .ok call) :
    Keyed.contains inner.args key = false := by
  simp only [OpenCall.insertToken] at h
  split at h
  · exact absurd h not_unexpected_eq_ok
  · exact (OpenCall.insert_eq_ok h).1

theorem mem_openArguments_of_stepToken {raw : String}
    (hmem : argument ∈ ⟨inner, key, keyStart⟩ :: outer) (hrepeated : argument.IsRepeated)
    (hstep : s.stepToken start outer inner keyStart key tokenStart raw position c = .ok next) :
    argument ∈ next.openArguments := by
  unfold stepToken at hstep
  split_ifs at hstep
  · obtain ⟨call, hinsert, hnext⟩ := exists_of_bind_eq_ok hstep
    rcases List.mem_cons.1 hmem with rfl | hmem
    · have hnew := contains_eq_false_of_insertToken hinsert
      exact absurd hrepeated (OpenArgument.not_isRepeated_iff.2 hnew)
    · exact mem_openArguments_of_stepNext hmem hrepeated hnext
  · split at hstep
    · cases hstep
      exact hmem
    · exact absurd hstep not_unexpected_eq_ok
  · exact absurd hstep not_unexpected_eq_ok
  · cases hstep
    exact hmem

theorem mem_openArguments_of_stepColon {blank : CallMode}
    (hmem : argument ∈ ⟨inner, key, keyStart⟩ :: outer)
    (hstep : stepColon keyStart key position c = .ok blank) :
    argument ∈ (blank.openArgument? inner).toList ++ outer := by
  unfold stepColon at hstep
  split_ifs at hstep
  · cases hstep
    exact hmem
  · cases hstep
    exact hmem
  · exact absurd hstep not_unexpected_eq_ok

theorem mem_openArguments_of_stepValue {later : CallMode}
    (hmem : argument ∈ ⟨inner, key, keyStart⟩ :: outer)
    (hstep : stepValue keyStart key position c = .ok later) :
    argument ∈ (later.openArgument? inner).toList ++ outer := by
  unfold stepValue at hstep
  split_ifs at hstep
  · cases hstep
    exact hmem
  · exact absurd hstep not_unexpected_eq_ok
  · exact absurd hstep not_unexpected_eq_ok
  · cases hstep
    exact hmem

theorem mem_openArguments_of_stepCall (hmem : argument ∈ (mode.openArgument? inner).toList ++ outer)
    (hrepeated : argument.IsRepeated)
    (hstep : s.stepCall start outer inner mode position c = .ok next) :
    argument ∈ next.openArguments := by
  -- An argument outside of the innermost call stays there unless that call ends.
  have hstay : ∀ result : Except Problem CallMode, argument ∈ outer →
      (result.map fun mode => { s with mode := .call start outer inner mode }) = .ok next →
      argument ∈ next.openArguments := by
    intro result hmem hresult
    obtain ⟨later, -, rfl⟩ := exists_of_map_eq_ok hresult
    exact List.mem_append_right _ hmem
  cases mode with
  | first =>
    simp only [stepCall] at hstep
    split_ifs at hstep
    · exact mem_openArguments_of_endCall hmem hrepeated hstep
    · exact hstay _ hmem hstep
  | key => exact hstay _ hmem hstep
  | keyName =>
    simp only [stepCall] at hstep
    split_ifs at hstep
    · exact hstay _ hmem hstep
    · exact hstay _ hmem hstep
  | colon =>
    obtain ⟨later, hlater, rfl⟩ := exists_of_map_eq_ok hstep
    exact mem_openArguments_of_stepColon hmem hlater
  | value =>
    obtain ⟨later, hlater, rfl⟩ := exists_of_map_eq_ok hstep
    exact mem_openArguments_of_stepValue hmem hlater
  | token => exact mem_openArguments_of_stepToken hmem hrepeated hstep
  | next => exact mem_openArguments_of_stepNext hmem hrepeated hstep

theorem mem_openArguments_of_step (hmem : argument ∈ s.openArguments)
    (hrepeated : argument.IsRepeated) (hstep : s.step position c = .ok next) :
    argument ∈ next.openArguments := by
  obtain ⟨groups, pending, mode⟩ := s
  cases mode with
  | call start outer inner mode => exact mem_openArguments_of_stepCall hmem hrepeated hstep
  | _ => cases hmem

/-- Induction on the characters. -/
theorem Reads.mem_openArguments (h : s.Reads position w last) (hmem : argument ∈ s.openArguments)
    (hrepeated : argument.IsRepeated) : argument ∈ last.openArguments := by
  induction w generalizing s position with
  | nil =>
    cases h
    exact hmem
  | cons c rest ih =>
    obtain ⟨next, hnext, hrest⟩ := reads_cons_iff.1 h
    exact ih hrest (mem_openArguments_of_step hmem hrepeated hnext)

/-- A text cannot end where an argument is open that its call has already. -/
theorem not_readOn_eq_ok (hmem : argument ∈ s.openArguments) (hrepeated : argument.IsRepeated) :
    s.readOn position w ≠ .ok tree := by
  intro h
  obtain ⟨⟨last, stop⟩, hrun, hfinish⟩ := exists_of_bind_eq_ok h
  have hlast := (reads_of_run_eq_ok hrun).mem_openArguments hmem hrepeated
  obtain ⟨groups, pending, mode⟩ := last
  cases mode with
  | call => exact not_endInCall_eq_ok hfinish
  | _ => cases hlast

/-- Wherever the state stands in a text, some characters lead from it to an expression. -/
def IsCompletable (s : State) : Prop :=
  ∀ position, ∃ rest tree, s.readOn position rest = .ok tree

theorem IsCompletable.of_reads
    (h : ∀ position, ∃ w reached, s.Reads position w reached ∧ reached.IsCompletable) :
    s.IsCompletable := by
  intro position
  obtain ⟨w, reached, hreads, hreached⟩ := h position
  obtain ⟨rest, tree, hrest⟩ := hreached (position + utf8Len w)
  exact ⟨w ++ rest, tree, hreads.readOn_append rest ▸ hrest⟩

/-- Behind a term, the parentheses that are open are closed one after the other. -/
theorem isCompletable_operator (groups : List Pending) (pending : Pending) (tree : Tree) :
    IsCompletable ⟨groups, pending, .operator tree⟩ := by
  induction groups generalizing pending tree with
  | nil => exact fun position => ⟨[], tree, rfl⟩
  | cons outside groups ih =>
    exact .of_reads fun position => ⟨[')'], _, reads_singleton rfl, ih none _⟩

theorem isCompletable_endTerm (s : State) (term : Tree) : (s.endTerm term).IsCompletable :=
  isCompletable_operator _ _ _

/-- The calls that are open are closed one after the other. -/
theorem exists_endCall (s : State) (start : Nat)
    (houter : ∀ argument ∈ outer, ¬ argument.IsRepeated)
    (inner : OpenCall) (stop : Nat) :
    ∃ next, s.endCall start stop outer inner = .ok next ∧ next.IsCompletable := by
  induction outer generalizing s inner stop with
  | nil => exact ⟨_, rfl, isCompletable_endTerm s _⟩
  | cons argument outer ih =>
    obtain ⟨hargument, houter⟩ := List.forall_mem_cons.1 houter
    have hnew := OpenArgument.not_isRepeated_iff.1 hargument
    refine ⟨_, endCall_nested hnew stop, .of_reads fun position => ?_⟩
    obtain ⟨next, hnext, hcompletable⟩ := ih s houter _ (position + 1)
    exact ⟨[')'], next, reads_singleton hnext, hcompletable⟩

/-- So is a call that may end at this place. -/
theorem isCompletable_of_close (s : State) (start : Nat)
    (houter : ∀ argument ∈ outer, ¬ argument.IsRepeated)
    (hclose : ∀ position, (s.inCall start outer inner mode).step position ')' =
      s.endCall start (position + 1) outer inner) :
    (s.inCall start outer inner mode).IsCompletable := by
  refine .of_reads fun position => ?_
  obtain ⟨next, hnext, hcompletable⟩ := exists_endCall s start houter inner (position + 1)
  exact ⟨[')'], next, reads_singleton ((hclose position).trans hnext), hcompletable⟩

theorem isCompletable_first (s : State) (start : Nat)
    (houter : ∀ argument ∈ outer, ¬ argument.IsRepeated) (inner : OpenCall) :
    (s.inCall start outer inner .first).IsCompletable :=
  isCompletable_of_close s start houter fun _ => rfl

theorem isCompletable_next (s : State) (start : Nat)
    (houter : ∀ argument ∈ outer, ¬ argument.IsRepeated) (inner : OpenCall) :
    (s.inCall start outer inner .next).IsCompletable :=
  isCompletable_of_close s start houter fun _ => rfl

theorem isCompletable_token (s : State) (start : Nat)
    (houter : ∀ argument ∈ outer, ¬ argument.IsRepeated)
    (hnew : Keyed.contains inner.args key = false) (raw : List Char) :
    (s.inCall start outer inner
      (.token keyStart key tokenStart (String.ofList raw))).IsCompletable := by
  -- A digit more makes a value of the token, whatever it is so far.
  have hkept : (raw ++ ['0']).filter (!Text.isBlank ·) ≠ [] :=
    filter_isBlank_ne_nil_iff.2 ⟨'0', by simp, by decide⟩
  refine .of_reads fun position => ?_
  obtain ⟨next, hnext, hcompletable⟩ := exists_endCall s start houter
    { inner with
      args := Keyed.insert key (Value.ofToken ((raw ++ ['0']).filter (!Text.isBlank ·))) inner.args }
    (position + 1 + 1)
  have hdigit := step_tokenChar s start outer inner keyStart key tokenStart raw position '0' rfl
  have hclose : (s.inCall start outer inner
      (.token keyStart key tokenStart (String.ofList (raw ++ ['0'])))).step (position + 1) ')' =
        .ok next := by
    change (inner.insertToken key keyStart tokenStart (String.ofList (raw ++ ['0']))).bind _ = _
    rw [insertToken_of_ne_nil hkept, insert_of_not_contains hnew]
    exact hnext
  exact ⟨['0', ')'], next, Reads.cons hdigit (reads_singleton hclose), hcompletable⟩

theorem isCompletable_value (s : State) (start : Nat)
    (houter : ∀ argument ∈ outer, ¬ argument.IsRepeated)
    (hnew : Keyed.contains inner.args key = false) :
    (s.inCall start outer inner (.value keyStart key)).IsCompletable := by
  refine .of_reads fun position => ?_
  have hdigit : (s.inCall start outer inner (.value keyStart key)).Reads position ['0']
      (s.inCall start outer inner (.token keyStart key position (String.ofList ['0']))) :=
    reads_token rfl (List.forall_mem_singleton.2 rfl) position
  exact ⟨['0'], _, hdigit, isCompletable_token s start houter hnew ['0']⟩

theorem isCompletable_colon (s : State) (start : Nat)
    (houter : ∀ argument ∈ outer, ¬ argument.IsRepeated)
    (hnew : Keyed.contains inner.args key = false) :
    (s.inCall start outer inner (.colon keyStart key)).IsCompletable :=
  .of_reads fun _ => ⟨[':'], _, reads_singleton rfl, isCompletable_value s start houter hnew⟩

/-- Some name that begins with the given characters is no name of an argument yet. -/
theorem exists_new_name (args : List (String × Value)) (name : List Char) :
    ∃ n, Keyed.contains args (String.ofList (name ++ List.replicate n 'a')) = false := by
  have hinjective : Function.Injective fun n => String.ofList (name ++ List.replicate n 'a') := by
    intro m n h
    simpa using congrArg String.length h
  obtain ⟨_, ⟨n, rfl⟩, hn⟩ := (Set.infinite_range_of_injective hinjective).exists_notMem_finite
    (List.finite_toSet (args.map Prod.fst))
  refine ⟨n, ?_⟩
  unfold Keyed.contains
  rw [Keyed.get?_eq_none_iff.2 hn]
  rfl

theorem isCompletable_keyName (s : State) (start : Nat)
    (houter : ∀ argument ∈ outer, ¬ argument.IsRepeated) (inner : OpenCall) (name : List Char) :
    (s.inCall start outer inner (.keyName keyStart (String.ofList name))).IsCompletable := by
  obtain ⟨n, hnew⟩ := exists_new_name inner.args name
  have hchars : ∀ c ∈ List.replicate n 'a', isNameChar c = true := by
    intro c hc
    rw [List.eq_of_mem_replicate hc]
    rfl
  refine .of_reads fun position => ?_
  have hname := reads_run (step_keyChar s start outer inner keyStart) hchars name position
  exact ⟨_, _, hname.append (reads_colon IsBlanks.nil _), isCompletable_value s start houter hnew⟩

theorem isCompletable_key (s : State) (start : Nat)
    (houter : ∀ argument ∈ outer, ¬ argument.IsRepeated) (inner : OpenCall) :
    (s.inCall start outer inner (.key keyStart)).IsCompletable := by
  refine .of_reads fun position => ?_
  obtain ⟨nameStart, hname⟩ := reads_keyName s start outer inner (Or.inr ⟨keyStart, rfl⟩)
    (isName_singleton (c := 'a') rfl) position
  exact ⟨_, _, hname, isCompletable_keyName s start houter inner ['a']⟩

theorem isCompletable_openParenthesis (groups : List Pending) (pending : Pending) (start : Nat)
    (name : String) : IsCompletable ⟨groups, pending, .openParenthesis start name⟩ :=
  .of_reads fun _ =>
    ⟨['('], _, reads_singleton rfl, isCompletable_first _ start (List.forall_mem_nil _) _⟩

theorem isCompletable_of_forall_not_isRepeated
    (h : ∀ argument ∈ s.openArguments, ¬ argument.IsRepeated) : s.IsCompletable := by
  obtain ⟨groups, pending, mode⟩ := s
  cases mode with
  | term =>
    refine .of_reads fun position => ?_
    have hhead :=
      reads_callHead (s := ⟨groups, pending, .term⟩) rfl (isName_singleton (c := 'a') rfl)
      IsBlanks.nil position
    exact ⟨_, _, hhead, isCompletable_first _ position (List.forall_mem_nil _) _⟩
  | name start name =>
    exact .of_reads fun _ =>
      ⟨['('], _, reads_singleton rfl, isCompletable_first _ start (List.forall_mem_nil _) _⟩
  | openParenthesis start name => exact isCompletable_openParenthesis groups pending start name
  | operator tree => exact isCompletable_operator groups pending tree
  | call start outer inner mode =>
    obtain ⟨hmode, houter⟩ := List.forall_mem_append.1 h
    cases mode with
    | first => exact isCompletable_first ⟨groups, pending, .term⟩ start houter inner
    | next => exact isCompletable_next ⟨groups, pending, .term⟩ start houter inner
    | key => exact isCompletable_key ⟨groups, pending, .term⟩ start houter inner
    | keyName keyStart name =>
      rw [← String.ofList_toList (s := name)]
      exact isCompletable_keyName ⟨groups, pending, .term⟩ start houter inner name.toList
    | colon =>
      have hnew := OpenArgument.not_isRepeated_iff.1 (hmode _ (List.mem_singleton_self _))
      exact isCompletable_colon ⟨groups, pending, .term⟩ start houter hnew
    | value =>
      have hnew := OpenArgument.not_isRepeated_iff.1 (hmode _ (List.mem_singleton_self _))
      exact isCompletable_value ⟨groups, pending, .term⟩ start houter hnew
    | token keyStart key tokenStart raw =>
      have hnew := OpenArgument.not_isRepeated_iff.1 (hmode _ (List.mem_singleton_self _))
      rw [← String.ofList_toList (s := raw)]
      exact isCompletable_token ⟨groups, pending, .term⟩ start houter hnew raw.toList

end State

end Almanac.Expression

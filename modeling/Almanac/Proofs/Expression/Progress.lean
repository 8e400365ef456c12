import Mathlib.Data.List.Nodup
import Almanac.Proofs.Expression.Reading
import Almanac.Proofs.Outcome

/-!
What the reader knows in the middle of a text. Its state describes the characters so far as the
beginning of an expression: the left sides and parentheses before the current term, and how far that
term has come. Every step keeps this, so a text that the reader accepts is an expression, and the
answer is its tree.
-/

namespace Almanac.Expression

open String (utf8Len)

/-- The characters up to a place where a term is due: blanks at the start, left sides with the
joiners behind them, and open parentheses. -/
inductive Opened : List Pending → Pending → List Char → Prop where
  | start {blanks : List Char} (hblanks : IsBlanks blanks) : Opened [] none blanks
  | parenthesis {groups : List Pending} {pending : Pending} {w blanks : List Char}
      (h : Opened groups pending w) (hblanks : IsBlanks blanks) :
      Opened (pending :: groups) none (w ++ '(' :: blanks)
  | joiner {groups : List Pending} {w u before after : List Char} {joiner : Joiner} {left : Tree}
      (h : Opened groups none w) (hleft : Spells u (.chain (utf8Len w) left))
      (hbefore : IsBlanks before) (hafter : IsBlanks after) :
      Opened groups (some (left, joiner)) (w ++ (u ++ before ++ joiner.sign :: after))

/-- The characters of a call up to where its first argument is due. -/
inductive OpenCall.Empty : OpenCall → List Char → Prop where
  | intro {name before blanks : List Char} (hname : IsName name) (hbefore : IsBlanks before)
      (hblanks : IsBlanks blanks) :
      Empty ⟨String.ofList name, []⟩ (name ++ before ++ '(' :: blanks)

/-- The characters of a call up to the end of an argument. -/
inductive OpenCall.Filled : OpenCall → List Char → Prop where
  | intro {name before blanks w : List Char} {args : List (String × Value)} (hname : IsName name)
      (hbefore : IsBlanks before) (hblanks : IsBlanks blanks) (hargs : Spells w (.arguments args))
      (hdistinct : (args.map Prod.fst).Nodup) :
      Filled ⟨String.ofList name, Keyed.ofList args⟩ (name ++ before ++ '(' :: blanks ++ w)

/-- The characters of a call up to where the name of an argument is due. -/
inductive OpenCall.KeyDue : OpenCall → List Char → Prop where
  | first {call : OpenCall} {t : List Char} (h : call.Empty t) : KeyDue call t
  | further {call : OpenCall} {t before after : List Char} (h : call.Filled t)
      (hbefore : IsBlanks before) (hafter : IsBlanks after) :
      KeyDue call (t ++ before ++ ',' :: after)

/-- The characters of a call up to where the value of an argument is due. -/
inductive OpenCall.ValueDue : OpenCall → String → List Char → Prop where
  | intro {call : OpenCall} {t key before after : List Char} (h : call.KeyDue t)
      (hkey : IsName key) (hbefore : IsBlanks before) (hafter : IsBlanks after) :
      ValueDue call (String.ofList key) (t ++ (key ++ before ++ ':' :: after))

/-- The characters of the calls around the innermost one, each up to the value that this one is or
is in. -/
inductive Waiting : List OpenArgument → List Char → Prop where
  | nil : Waiting [] []
  | cons {argument : OpenArgument} {outer : List OpenArgument} {u t : List Char}
      (h : Waiting outer u) (hvalue : argument.call.ValueDue argument.key t) :
      Waiting (argument :: outer) (u ++ t)

/-- The characters of a call so far. -/
inductive CallMode.Describes : CallMode → OpenCall → List Char → Prop where
  | first {call : OpenCall} {t : List Char} (h : call.Empty t) : Describes .first call t
  | key {call : OpenCall} {t : List Char} {start : Nat} (h : call.KeyDue t) :
      Describes (.key start) call t
  | keyName {call : OpenCall} {t key : List Char} {start : Nat} (h : call.KeyDue t)
      (hkey : IsName key) : Describes (.keyName start (String.ofList key)) call (t ++ key)
  | colon {call : OpenCall} {t key blanks : List Char} {start : Nat} (h : call.KeyDue t)
      (hkey : IsName key) (hblanks : IsBlanks blanks) :
      Describes (.colon start (String.ofList key)) call (t ++ (key ++ blanks))
  | value {call : OpenCall} {t : List Char} {start : Nat} {key : String}
      (h : call.ValueDue key t) : Describes (.value start key) call t
  | token {call : OpenCall} {t raw : List Char} {start tokenStart : Nat} {key : String}
      (h : call.ValueDue key t) (hsome : raw ≠ []) (hrun : ∀ c ∈ raw, isDelimiter c = false) :
      Describes (.token start key tokenStart (String.ofList raw)) call (t ++ raw)
  | next {call : OpenCall} {t blanks : List Char} (h : call.Filled t) (hblanks : IsBlanks blanks) :
      Describes .next call (t ++ blanks)

/-- The characters of the text so far. -/
inductive State.Describes : State → List Char → Prop where
  | term {groups : List Pending} {pending : Pending} {w : List Char}
      (h : Opened groups pending w) : Describes ⟨groups, pending, .term⟩ w
  | name {groups : List Pending} {pending : Pending} {w name : List Char}
      (h : Opened groups pending w) (hname : IsName name) :
      Describes ⟨groups, pending, .name (utf8Len w) (String.ofList name)⟩ (w ++ name)
  | openParenthesis {groups : List Pending} {pending : Pending} {w name blanks : List Char}
      (h : Opened groups pending w) (hname : IsName name) (hblanks : IsBlanks blanks) :
      Describes ⟨groups, pending, .openParenthesis (utf8Len w) (String.ofList name)⟩
        (w ++ (name ++ blanks))
  | call {groups : List Pending} {pending : Pending} {w u t : List Char}
      {outer : List OpenArgument} {inner : OpenCall} {mode : CallMode}
      (h : Opened groups pending w) (houter : Waiting outer u) (hmode : mode.Describes inner t) :
      Describes ⟨groups, pending, .call (utf8Len w) outer inner mode⟩ (w ++ (u ++ t))
  | operator {groups : List Pending} {w u blanks : List Char} {tree : Tree}
      (h : Opened groups none w) (hchain : Spells u (.chain (utf8Len w) tree))
      (hblanks : IsBlanks blanks) :
      Describes ⟨groups, none, .operator tree⟩ (w ++ (u ++ blanks))

section

variable {s next : State} {groups : List Pending} {pending : Pending} {position start : Nat}
  {outer : List OpenArgument} {inner call : OpenCall} {mode later : CallMode}
  {w u t raw blanks : List Char} {c : Char} {key name : String} {v : Value} {tree : Tree}

theorem not_unexpected_eq_ok {α : Type} {expected : Expected} {a : α} :
    ¬ unexpected position expected c = .ok a := nofun

theorem Opened.blank (h : Opened groups pending w) (hc : Text.isAsciiBlank c = true) :
    Opened groups pending (w ++ [c]) := by
  cases h with
  | start hblanks => exact .start (hblanks.concat hc)
  | parenthesis h hblanks =>
    rw [List.append_assoc]
    exact .parenthesis h (hblanks.concat hc)
  | joiner h hleft hbefore hafter =>
    rw [List.append_assoc, List.append_assoc]
    exact .joiner h hleft hbefore (hafter.concat hc)

theorem OpenCall.Empty.blank (h : call.Empty t) (hc : Text.isAsciiBlank c = true) :
    call.Empty (t ++ [c]) := by
  obtain ⟨hname, hbefore, hblanks⟩ := h
  rw [List.append_assoc]
  exact .intro hname hbefore (hblanks.concat hc)

theorem OpenCall.KeyDue.blank (h : call.KeyDue t) (hc : Text.isAsciiBlank c = true) :
    call.KeyDue (t ++ [c]) := by
  cases h with
  | first h => exact .first (h.blank hc)
  | further h hbefore hafter =>
    rw [List.append_assoc]
    exact .further h hbefore (hafter.concat hc)

theorem OpenCall.ValueDue.blank (h : call.ValueDue key t) (hc : Text.isAsciiBlank c = true) :
    call.ValueDue key (t ++ [c]) := by
  obtain ⟨h, hkey, hbefore, hafter⟩ := h
  rw [List.append_assoc, List.append_assoc]
  exact .intro h hkey hbefore (hafter.concat hc)

/-- A term completes the chain that waits for it. -/
theorem Opened.endTerm (h : Opened s.groups s.pending w)
    (hterm : Spells t (.term (utf8Len w) tree)) : (s.endTerm tree).Describes (w ++ t) := by
  obtain ⟨groups, pending, mode⟩ := s
  cases pending with
  | none =>
    have hdescribes := State.Describes.operator h (.single hterm) IsBlanks.nil
    rw [List.append_nil] at hdescribes
    exact hdescribes
  | some waiting =>
    cases h with
    | joiner h hleft hbefore hafter =>
      rw [String.utf8Len_append] at hterm
      have hdescribes := State.Describes.operator h (.join hleft hbefore hafter hterm) IsBlanks.nil
      rw [List.append_nil, ← List.append_assoc] at hdescribes
      exact hdescribes

theorem OpenCall.Empty.close (h : inner.Empty t) :
    Spells (t ++ [')']) (.call inner.name inner.args) := by
  obtain ⟨hname, hbefore, hblanks⟩ := h
  exact .emptyCall hname hbefore hblanks

theorem OpenCall.Filled.close (h : inner.Filled t) (hblanks : IsBlanks blanks) :
    Spells (t ++ blanks ++ [')']) (.call inner.name inner.args) := by
  obtain ⟨hname, hbefore, hfirst, hargs, hdistinct⟩ := h
  exact .call hname hbefore hfirst hargs hblanks hdistinct

/-- An argument of a new name joins those that the call has. -/
theorem OpenCall.KeyDue.argument (h : call.KeyDue t) (hargument : Spells u (.argument key v))
    (hnew : Keyed.contains call.args key = false) :
    OpenCall.Filled { call with args := Keyed.insert key v call.args } (t ++ u) := by
  cases h with
  | first h =>
    obtain ⟨hname, hbefore, hblanks⟩ := h
    exact .intro hname hbefore hblanks (.firstArgument hargument) (List.nodup_singleton _)
  | further h hcomma hafter =>
    obtain @⟨name, before, blanks, w, args, hname, hbefore, hblanks, hargs, hdistinct⟩ := h
    have hkey : key ∉ args.map Prod.fst := by
      intro hmem
      rw [(Keyed.contains_ofList_iff args key).2 hmem] at hnew
      cases hnew
    have hall : ((args ++ [(key, v)]).map Prod.fst).Nodup := by
      rw [List.map_append]
      exact List.Nodup.append hdistinct (List.nodup_singleton key) (by simpa using hkey)
    have hfilled := OpenCall.Filled.intro hname hbefore hblanks
      (.furtherArgument hargs hcomma hafter hargument) hall
    rw [Keyed.ofList_concat] at hfilled
    simpa using hfilled

theorem OpenCall.ValueDue.value (h : call.ValueDue key t) (hvalue : Spells u (.value v))
    (hnew : Keyed.contains call.args key = false) :
    OpenCall.Filled { call with args := Keyed.insert key v call.args } (t ++ u) := by
  obtain ⟨h, hkey, hbefore, hafter⟩ := h
  rw [List.append_assoc]
  exact h.argument (.argument hkey hbefore hafter hvalue) hnew

theorem OpenCall.insert_eq_ok {keyStart : Nat} (h : inner.insert key keyStart v = .ok call) :
    Keyed.contains inner.args key = false ∧
      call = { inner with args := Keyed.insert key v inner.args } := by
  unfold OpenCall.insert at h
  split at h
  · cases h
  · rename_i hnew
    cases h
    exact ⟨Bool.eq_false_iff.2 hnew, rfl⟩

/-- A token that gets filed is the value of its argument. -/
theorem OpenCall.ValueDue.token {keyStart tokenStart : Nat} (h : inner.ValueDue key t)
    (hraw : raw ≠ []) (hrun : ∀ c ∈ raw, isDelimiter c = false)
    (hinsert : inner.insertToken key keyStart tokenStart (String.ofList raw) = .ok call) :
    call.Filled (t ++ raw) := by
  by_cases hkept : raw.filter (!Text.isBlank ·) = []
  · exfalso
    unfold OpenCall.insertToken at hinsert
    rw [String.toList_ofList, hkept] at hinsert
    cases raw with
    | nil => exact hraw rfl
    | cons first rest => exact not_unexpected_eq_ok hinsert
  · rw [State.insertToken_of_ne_nil hkept] at hinsert
    obtain ⟨hnew, rfl⟩ := OpenCall.insert_eq_ok hinsert
    exact h.value (.token hrun (filter_isBlank_ne_nil_iff.1 hkept)) hnew

theorem describes_of_endCall (hopened : Opened s.groups s.pending w) (houter : Waiting outer u)
    (hcall : Spells t (.call inner.name inner.args))
    (hstep : s.endCall (utf8Len w) (utf8Len (w ++ (u ++ t))) outer inner = .ok next) :
    next.Describes (w ++ (u ++ t)) := by
  cases houter with
  | nil =>
    cases hstep
    rw [List.nil_append, String.utf8Len_append]
    exact hopened.endTerm (.term hcall)
  | cons houter hvalue =>
    obtain ⟨call, hinsert, rfl⟩ := exists_of_map_eq_ok hstep
    obtain ⟨hnew, rfl⟩ := OpenCall.insert_eq_ok hinsert
    have hfilled := hvalue.value (.nested hcall) hnew
    simpa using State.Describes.call hopened houter (.next hfilled IsBlanks.nil)

theorem describes_of_stepNext (hopened : Opened s.groups s.pending w) (houter : Waiting outer u)
    (hfilled : inner.Filled t) (hblanks : IsBlanks blanks)
    (hstep : s.stepNext (utf8Len w) outer inner (utf8Len (w ++ (u ++ (t ++ blanks)))) c =
      .ok next) :
    next.Describes (w ++ (u ++ (t ++ blanks)) ++ [c]) := by
  unfold State.stepNext at hstep
  split_ifs at hstep with hblank hcomma hclose
  · cases hstep
    simpa using State.Describes.call hopened houter (.next hfilled (hblanks.concat hblank))
  · cases hstep
    subst hcomma
    simpa using State.Describes.call hopened houter (.key (.further hfilled hblanks IsBlanks.nil))
  · subst hclose
    have hsplit : w ++ (u ++ (t ++ blanks)) ++ [')'] = w ++ (u ++ (t ++ blanks ++ [')'])) := by
      simp
    have hstop : utf8Len (w ++ (u ++ (t ++ blanks))) + 1 =
        utf8Len (w ++ (u ++ (t ++ blanks ++ [')']))) := by
      rw [← hsplit, String.utf8Len_append (w ++ (u ++ (t ++ blanks)))]
      rfl
    rw [hstop] at hstep
    rw [hsplit]
    exact describes_of_endCall hopened houter (hfilled.close hblanks) hstep
  · exact absurd hstep not_unexpected_eq_ok

theorem describes_of_stepToken {keyStart tokenStart : Nat} (hopened : Opened s.groups s.pending w)
    (houter : Waiting outer u) (hvalue : inner.ValueDue key t) (hraw : raw ≠ [])
    (hrun : ∀ c ∈ raw, isDelimiter c = false)
    (hstep : s.stepToken (utf8Len w) outer inner keyStart key tokenStart (String.ofList raw)
      (utf8Len (w ++ (u ++ (t ++ raw)))) c = .ok next) :
    next.Describes (w ++ (u ++ (t ++ raw)) ++ [c]) := by
  unfold State.stepToken at hstep
  split_ifs at hstep with hend hopen hjoiner
  · obtain ⟨call, hinsert, hnext⟩ := exists_of_bind_eq_ok hstep
    have hfilled := hvalue.token hraw hrun hinsert
    rw [← List.append_nil (t ++ raw)] at hnext ⊢
    exact describes_of_stepNext hopened houter hfilled IsBlanks.nil hnext
  · subst hopen
    cases hnested : nestedName? (String.ofList raw) with
    | none =>
      rw [hnested] at hstep
      exact absurd hstep not_unexpected_eq_ok
    | some name =>
      rw [hnested] at hstep
      cases hstep
      obtain ⟨head, before, rfl, hhead, hbefore, rfl⟩ := nestedName?_eq_some_iff.1 hnested
      have hcall := OpenCall.Empty.intro hhead hbefore IsBlanks.nil
      have houter' : Waiting (⟨inner, key, keyStart⟩ :: outer) (u ++ t) := .cons houter hvalue
      simpa using State.Describes.call hopened houter' (.first hcall)
  · exact absurd hstep not_unexpected_eq_ok
  · cases hstep
    have hc : isDelimiter c = false := by
      simp only [Bool.or_eq_true, decide_eq_true_eq, not_or] at hend hjoiner
      exact isDelimiter_eq_false_iff.2 ⟨hend.1, hend.2, hopen, hjoiner.1, hjoiner.2⟩
    have hrun' : ∀ d ∈ raw ++ [c], isDelimiter d = false :=
      List.forall_mem_append.2 ⟨hrun, by simpa using hc⟩
    have htoken : CallMode.Describes (.token keyStart key tokenStart (String.ofList (raw ++ [c])))
        inner (t ++ (raw ++ [c])) := .token hvalue (by simp) hrun'
    simpa using State.Describes.call hopened houter htoken

theorem describes_of_stepKey (h : call.KeyDue t)
    (hblank : Text.isAsciiBlank c = true → mode.Describes call (t ++ [c]))
    (hstep : stepKey start position c mode = .ok later) : later.Describes call (t ++ [c]) := by
  unfold stepKey at hstep
  split_ifs at hstep with hc hname
  · cases hstep
    exact hblank hc
  · cases hstep
    exact .keyName h (isName_singleton hname)
  · exact absurd hstep not_unexpected_eq_ok

theorem describes_of_stepColon (h : call.KeyDue t) (hkey : IsName raw) (hblanks : IsBlanks blanks)
    (hstep : stepColon start (String.ofList raw) position c = .ok later) :
    later.Describes call (t ++ (raw ++ blanks) ++ [c]) := by
  unfold stepColon at hstep
  split_ifs at hstep with hc hcolon
  · cases hstep
    rw [List.append_assoc, List.append_assoc]
    exact .colon h hkey (hblanks.concat hc)
  · cases hstep
    subst hcolon
    have hvalue := OpenCall.ValueDue.intro h hkey hblanks IsBlanks.nil
    rw [← List.append_assoc] at hvalue
    exact .value hvalue
  · exact absurd hstep not_unexpected_eq_ok

theorem describes_of_stepValue (h : call.ValueDue key t)
    (hstep : stepValue start key position c = .ok later) : later.Describes call (t ++ [c]) := by
  unfold stepValue at hstep
  split_ifs at hstep with hc hend hjoiner
  · cases hstep
    exact .value (h.blank hc)
  · exact absurd hstep not_unexpected_eq_ok
  · exact absurd hstep not_unexpected_eq_ok
  · cases hstep
    have hrun : ∀ d ∈ [c], isDelimiter d = false := by
      simp only [Bool.or_eq_true, decide_eq_true_eq, not_or] at hend hjoiner
      obtain ⟨⟨hopen, hand⟩, hor⟩ := hjoiner
      rw [List.forall_mem_singleton]
      exact isDelimiter_eq_false_iff.2 ⟨hend.1, hend.2, hopen, hand, hor⟩
    exact .token h (List.cons_ne_nil c []) hrun

/-- A step that stays in the innermost call. -/
theorem describes_of_map (hopened : Opened s.groups s.pending w) (houter : Waiting outer u)
    {result : Except Problem CallMode}
    (hmode : ∀ later, result = .ok later → later.Describes inner (t ++ [c]))
    (hstep : (result.map fun mode => { s with mode := .call (utf8Len w) outer inner mode }) =
      .ok next) :
    next.Describes (w ++ (u ++ t) ++ [c]) := by
  obtain ⟨later, hlater, rfl⟩ := exists_of_map_eq_ok hstep
  simpa using State.Describes.call hopened houter (hmode later hlater)

theorem describes_of_stepCall (hopened : Opened s.groups s.pending w) (houter : Waiting outer u)
    (hmode : mode.Describes inner t)
    (hstep : s.stepCall (utf8Len w) outer inner mode (utf8Len (w ++ (u ++ t))) c = .ok next) :
    next.Describes (w ++ (u ++ t) ++ [c]) := by
  cases hmode with
  | first h =>
    simp only [State.stepCall] at hstep
    split_ifs at hstep with hclose
    · subst hclose
      have hsplit : w ++ (u ++ t) ++ [')'] = w ++ (u ++ (t ++ [')'])) := by simp
      have hstop : utf8Len (w ++ (u ++ t)) + 1 = utf8Len (w ++ (u ++ (t ++ [')']))) := by
        rw [← hsplit, String.utf8Len_append (w ++ (u ++ t))]
        rfl
      rw [hstop] at hstep
      rw [hsplit]
      exact describes_of_endCall hopened houter h.close hstep
    · refine describes_of_map hopened houter (fun later hlater => ?_) hstep
      exact describes_of_stepKey (.first h) (fun hc => .first (h.blank hc)) hlater
  | key h =>
    refine describes_of_map hopened houter (fun later hlater => ?_) hstep
    exact describes_of_stepKey h (fun hc => .key (h.blank hc)) hlater
  | @keyName call t key start h hkey =>
    simp only [State.stepCall] at hstep
    split_ifs at hstep with hc
    · refine describes_of_map hopened houter (fun later hlater => ?_) hstep
      cases hlater
      have hname : (String.ofList key).push c = String.ofList (key ++ [c]) := by simp
      rw [hname, List.append_assoc]
      exact .keyName h (hkey.concat hc)
    · refine describes_of_map hopened houter (fun later hlater => ?_) hstep
      have hcolon := describes_of_stepColon h hkey IsBlanks.nil hlater
      rw [List.append_nil] at hcolon
      exact hcolon
  | colon h hkey hblanks =>
    refine describes_of_map hopened houter (fun later hlater => ?_) hstep
    exact describes_of_stepColon h hkey hblanks hlater
  | value h =>
    refine describes_of_map hopened houter (fun later hlater => ?_) hstep
    exact describes_of_stepValue h hlater
  | token h hraw hrun => exact describes_of_stepToken hopened houter h hraw hrun hstep
  | next hfilled hblanks => exact describes_of_stepNext hopened houter hfilled hblanks hstep

theorem describes_of_stepTerm (hopened : Opened groups pending w)
    (hstep : State.stepTerm ⟨groups, pending, .term⟩ (utf8Len w) c = .ok next) :
    next.Describes (w ++ [c]) := by
  unfold State.stepTerm at hstep
  split_ifs at hstep with hc hopen hname
  · cases hstep
    exact .term (hopened.blank hc)
  · cases hstep
    subst hopen
    exact .term (.parenthesis hopened IsBlanks.nil)
  · cases hstep
    exact .name hopened (isName_singleton hname)
  · exact absurd hstep not_unexpected_eq_ok

theorem describes_of_stepOpenParenthesis (hopened : Opened s.groups s.pending w)
    (hname : IsName raw) (hblanks : IsBlanks blanks)
    (hstep : s.stepOpenParenthesis (utf8Len w) (String.ofList raw) position c = .ok next) :
    next.Describes (w ++ (raw ++ blanks) ++ [c]) := by
  unfold State.stepOpenParenthesis at hstep
  split_ifs at hstep with hc hopen
  · cases hstep
    simpa using State.Describes.openParenthesis hopened hname (hblanks.concat hc)
  · cases hstep
    subst hopen
    have hcall : CallMode.Describes .first _ _ := .first (.intro hname hblanks IsBlanks.nil)
    simpa using State.Describes.call hopened .nil hcall
  · exact absurd hstep not_unexpected_eq_ok

theorem Joiner.sign_of_ofSign?_eq_some {joiner : Joiner} (h : Joiner.ofSign? c = some joiner) :
    c = joiner.sign := by
  unfold Joiner.ofSign? at h
  split_ifs at h with hand hor
  · cases h
    exact hand
  · cases h
    exact hor

/-- Behind a term the chain goes on, or its parentheses end. -/
theorem describes_of_stepOperator (hopened : Opened groups none w)
    (hchain : Spells u (.chain (utf8Len w) tree)) (hblanks : IsBlanks blanks)
    (hstep : State.stepOperator ⟨groups, none, .operator tree⟩ tree position c = .ok next) :
    next.Describes (w ++ (u ++ blanks) ++ [c]) := by
  unfold State.stepOperator at hstep
  by_cases hc : Text.isAsciiBlank c = true
  · rw [if_pos hc] at hstep
    cases hstep
    simpa using State.Describes.operator hopened hchain (hblanks.concat hc)
  · rw [if_neg hc] at hstep
    cases hjoiner : Joiner.ofSign? c with
    | some joiner =>
      rw [hjoiner] at hstep
      cases hstep
      rw [Joiner.sign_of_ofSign?_eq_some hjoiner]
      simpa using State.Describes.term (.joiner hopened hchain hblanks IsBlanks.nil)
    | none =>
      rw [hjoiner] at hstep
      cases hopened with
      | start hstart => exact absurd hstep not_unexpected_eq_ok
      | @parenthesis groups pending w before hopened hbefore =>
        simp only at hstep
        split_ifs at hstep with hclose
        · cases hstep
          subst hclose
          rw [String.utf8Len_append] at hchain
          have hterm := Spells.parentheses hbefore hchain hblanks
          simpa using Opened.endTerm (s := ⟨groups, pending, .term⟩) hopened hterm
        · exact absurd hstep not_unexpected_eq_ok

/-- Every character that the reader takes leaves it with a description of the text so far. -/
theorem State.Describes.step (h : s.Describes t) (hstep : s.step (utf8Len t) c = .ok next) :
    next.Describes (t ++ [c]) := by
  cases h with
  | term h => exact describes_of_stepTerm h hstep
  | @name groups pending w name h hname =>
    simp only [State.step] at hstep
    split_ifs at hstep with hc
    · cases hstep
      simpa using State.Describes.name h (hname.concat hc)
    · have hdescribes := describes_of_stepOpenParenthesis
        (s := ⟨groups, pending, .name (utf8Len w) (String.ofList name)⟩) h hname IsBlanks.nil hstep
      rw [List.append_nil] at hdescribes
      exact hdescribes
  | openParenthesis h hname hblanks =>
    exact describes_of_stepOpenParenthesis h hname hblanks hstep
  | call h houter hmode => exact describes_of_stepCall h houter hmode hstep
  | operator h hchain hblanks => exact describes_of_stepOperator h hchain hblanks hstep

/-- Induction on the characters that are left. -/
theorem State.Describes.run {last : State} (h : s.Describes t)
    (hrun : s.run (utf8Len t) w = .ok (last, position)) : last.Describes (t ++ w) := by
  induction w generalizing s t with
  | nil =>
    cases hrun
    rw [List.append_nil]
    exact h
  | cons c rest ih =>
    rw [State.run] at hrun
    cases hstep : s.step (utf8Len t) c with
    | error problem =>
      rw [hstep] at hrun
      cases hrun
    | ok next =>
      have hposition : utf8Len t + c.utf8Size = utf8Len (t ++ [c]) := by
        rw [String.utf8Len_append, String.utf8Len_cons, String.utf8Len_nil, Nat.zero_add]
      rw [hstep, hposition] at hrun
      rw [← List.singleton_append, ← List.append_assoc]
      exact ih (h.step hstep) hrun

theorem not_endInCall_eq_ok : ¬ endInCall inner mode position = .ok tree := by
  intro h
  cases mode with
  | token keyStart key tokenStart raw =>
    obtain ⟨call, _, hend⟩ := exists_of_bind_eq_ok h
    cases hend
  | _ => cases h

/-- Only behind a chain that no parenthesis is open around may a text end. -/
theorem State.Describes.finish (h : s.Describes t) (hfinish : s.finish position = .ok tree) :
    IsExpression t tree := by
  cases h with
  | term h => cases hfinish
  | name h hname => cases hfinish
  | openParenthesis h hname hblanks => cases hfinish
  | call h houter hmode => exact absurd hfinish not_endInCall_eq_ok
  | @operator groups w u blanks tree h hchain hblanks =>
    simp only [State.finish] at hfinish
    cases h with
    | start hstart =>
      cases hfinish
      exact ⟨w, u, blanks, by simp, hstart, hblanks, hchain⟩
    | parenthesis h hbefore => cases hfinish

end

/-- A text that the reader accepts spells the tree that it answers. -/
theorem isExpression_of_read_eq_ok {text : String} {tree : Tree} (h : read text = .ok tree) :
    IsExpression text.toList tree := by
  obtain ⟨⟨last, position⟩, hrun, hfinish⟩ := exists_of_bind_eq_ok h
  have hstart : State.Describes {} [] := .term (.start IsBlanks.nil)
  exact (hstart.run hrun).finish hfinish

/-- The reader accepts the expressions and nothing else, and its answer is the tree that the text
spells, with the places of its calls. -/
theorem read_eq_ok_iff (text : String) (tree : Tree) :
    read text = .ok tree ↔ IsExpression text.toList tree :=
  ⟨isExpression_of_read_eq_ok, read_of_isExpression⟩

end Almanac.Expression

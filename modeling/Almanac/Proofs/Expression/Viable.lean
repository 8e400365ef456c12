import Almanac.Proofs.Expression.Completion
import Almanac.Proofs.Expression.Marks

/-!
What a text is like up to the place of its problem. More characters could make an expression of it,
unless one of its calls has an argument name for the second time.
-/

namespace Almanac.Expression

open String (utf8Len)

/-- A call up to an argument name that it has already, and the sign behind that name. The arguments
before have different names. -/
inductive RepeatsName : List Char → Prop where
  | intro {name before first w gap after key : List Char} {args : List (String × Value)}
      {sign : Char} (hname : IsName name) (hbefore : IsBlanks before) (hfirst : IsBlanks first)
      (hargs : Spells w (.arguments args)) (hdistinct : (args.map Prod.fst).Nodup)
      (hgap : IsBlanks gap) (hafter : IsBlanks after) (hkey : IsName key)
      (hrepeated : String.ofList key ∈ args.map Prod.fst)
      (hsign : Text.isAsciiBlank sign = true ∨ sign = ':') :
      RepeatsName (name ++ before ++ '(' :: first ++ w ++ gap ++ ',' :: after ++ key ++ [sign])

/-- One call in the text writes the name of an argument twice. The second time the name has ended,
so that it is not the beginning of another name. -/
def RepeatsArgument (text : List Char) : Prop :=
  ∃ before w after, text = before ++ w ++ after ∧ RepeatsName w

section

variable {t u w name key blanks first gap after : List Char} {s next last : State}
  {position start : Nat} {c sign : Char}
  {call inner : OpenCall} {outer : List OpenArgument} {argument : OpenArgument} {mode : CallMode}

theorem RepeatsArgument.append (h : RepeatsArgument t) (before after : List Char) :
    RepeatsArgument (before ++ t ++ after) := by
  obtain ⟨u, w, v, rfl, hw⟩ := h
  exact ⟨before ++ u, w, v ++ after, by simp, hw⟩

theorem OpenCall.KeyDue.repeatsName (h : call.KeyDue t) (hkey : IsName key)
    (hrepeated : Keyed.contains call.args (String.ofList key) = true)
    (hsign : Text.isAsciiBlank sign = true ∨ sign = ':') : RepeatsName (t ++ key ++ [sign]) := by
  cases h with
  | first h =>
    obtain ⟨-, -, -⟩ := h
    cases hrepeated
  | further h hgap hafter =>
    obtain ⟨hname, hbefore, hblanks, hargs, hdistinct⟩ := h
    rw [Keyed.contains_ofList_iff] at hrepeated
    exact .intro hname hbefore hblanks hargs hdistinct hgap hafter hkey hrepeated hsign

theorem OpenCall.ValueDue.repeatsArgument {key : String} (h : call.ValueDue key t)
    (hrepeated : Keyed.contains call.args key = true) : RepeatsArgument t := by
  obtain @⟨t, key, before, after, h, hkey, hbefore, -⟩ := h
  cases before with
  | nil =>
    have hname := h.repeatsName hkey hrepeated (Or.inr rfl)
    exact ⟨[], _, after, by simp, hname⟩
  | cons sign rest =>
    have hname := h.repeatsName hkey hrepeated (Or.inl (hbefore sign (List.mem_cons_self ..)))
    exact ⟨[], _, rest ++ ':' :: after, by simp, hname⟩

theorem Waiting.repeatsArgument (h : Waiting outer u) (hmem : argument ∈ outer)
    (hrepeated : argument.IsRepeated) : RepeatsArgument u := by
  induction h with
  | nil => cases hmem
  | @cons waiting outer u t h hvalue ih =>
    rcases List.mem_cons.1 hmem with rfl | hmem
    · simpa using (hvalue.repeatsArgument hrepeated).append u []
    · simpa using (ih hmem).append [] t

/-- The name of an argument whose colon is due has ended, as blanks stand behind it. -/
theorem exists_blank_behind (hblanks : IsBlanks blanks) (hkey : IsName key)
    (hlast : ∃ c ∈ (t ++ (key ++ blanks)).getLast?, Text.isAsciiBlank c = true) :
    ∃ sign rest, blanks = sign :: rest ∧ Text.isAsciiBlank sign = true := by
  cases blanks with
  | cons sign rest => exact ⟨sign, rest, rfl, hblanks sign (List.mem_cons_self ..)⟩
  | nil =>
    obtain ⟨c, hc, hblank⟩ := hlast
    have hsome : key ≠ [] := by
      rintro rfl
      exact hkey
    rw [List.append_nil, List.getLast?_append_of_ne_nil _ hsome, Option.mem_def] at hc
    have hname := hkey.isNameChar c (List.mem_of_getLast? hc)
    rw [isAsciiBlank_eq_false_of_isNameChar hname] at hblank
    cases hblank

theorem CallMode.Describes.repeatsArgument (h : mode.Describes inner t) (hmarked : mode.IsMarked u)
    (hu : ∃ before, u = before ++ t) (hmem : argument ∈ mode.openArgument? inner)
    (hrepeated : argument.IsRepeated) : RepeatsArgument t := by
  cases h with
  | first | key | keyName | next => cases hmem
  | colon h hkey hblanks =>
    cases hmem
    obtain ⟨before, rfl⟩ := hu
    obtain ⟨-, hlast⟩ := hmarked
    rw [← List.append_assoc] at hlast
    obtain ⟨sign, rest, rfl, hsign⟩ := exists_blank_behind hblanks hkey hlast
    exact ⟨[], _, rest, by simp, h.repeatsName hkey hrepeated (Or.inl hsign)⟩
  | value h =>
    cases hmem
    exact h.repeatsArgument hrepeated
  | token h =>
    cases hmem
    simpa using (h.repeatsArgument hrepeated).append [] _

theorem State.Describes.repeatsArgument (h : s.Describes t) (hmarked : s.IsMarked t)
    (hmem : argument ∈ s.openArguments) (hrepeated : argument.IsRepeated) : RepeatsArgument t := by
  cases h with
  | term | name | openParenthesis | operator => cases hmem
  | @call _ _ w u t outer inner mode _ houter hmode =>
    rcases List.mem_append.1 hmem with hmem | hmem
    · have ht := hmode.repeatsArgument hmarked.2 ⟨w ++ u, by simp⟩ (by simpa using hmem) hrepeated
      simpa using ht.append (w ++ u) []
    · simpa using (houter.repeatsArgument hmem hrepeated).append w t

/-- In what may become the name of an argument or of a nested call, or in blanks behind it. -/
def CallMode.IsHead : CallMode → Prop
  | .keyName _ _ | .colon _ _ | .token _ _ _ _ => True
  | .first | .key _ | .value _ _ | .next => False

/-- In what may become the name of a section or of an argument, or in blanks behind it. -/
def Mode.IsHead : Mode → Prop
  | .name _ _ | .openParenthesis _ _ => True
  | .call _ _ _ mode => mode.IsHead
  | .term | .operator _ => False

theorem isHead_of_stepKey {blank later : CallMode} (hc : Text.isAsciiBlank c = false)
    (h : stepKey start position c blank = .ok later) : later.IsHead := by
  unfold stepKey at h
  split_ifs at h with hblank
  · rw [hc] at hblank
    cases hblank
  · cases h
    trivial
  · exact absurd h not_unexpected_eq_ok

theorem isHead_of_stepCall (hc : isNameChar c = true)
    (h : s.stepCall start outer inner mode position c = .ok next) : next.mode.IsHead := by
  have hblank := isAsciiBlank_eq_false_of_isNameChar hc
  have hdelimiter := isDelimiter_eq_false_iff.1 (isDelimiter_eq_false_of_isNameChar hc)
  cases mode with
  | first =>
    simp only [State.stepCall, if_neg hdelimiter.2.1] at h
    obtain ⟨later, hlater, rfl⟩ := exists_of_map_eq_ok h
    exact isHead_of_stepKey hblank hlater
  | key =>
    obtain ⟨later, hlater, rfl⟩ := exists_of_map_eq_ok h
    exact isHead_of_stepKey hblank hlater
  | keyName =>
    simp only [State.stepCall, if_pos hc] at h
    cases h
    trivial
  | colon =>
    have hcolon : c ≠ ':' := by
      rintro rfl
      cases hc
    simp [State.stepCall, stepColon, hblank, hcolon, unexpected, Except.map] at h
  | value keyStart key =>
    have hnext : s.stepCall start outer inner (.value keyStart key) position c =
        .ok (s.inCall start outer inner (.token keyStart key position c.toString)) := by
      simp [State.stepCall, stepValue, hblank, hdelimiter, Except.map]
    cases hnext.symm.trans h
    trivial
  | token keyStart key tokenStart raw =>
    have hnext : s.stepCall start outer inner (.token keyStart key tokenStart raw) position c =
        .ok (s.inCall start outer inner (.token keyStart key tokenStart (raw.push c))) := by
      simp [State.stepCall, State.stepToken, hdelimiter]
    cases hnext.symm.trans h
    trivial
  | next => simp [State.stepCall, State.stepNext, hblank, hdelimiter, unexpected] at h

/-- A character of a name is taken for nothing else. -/
theorem isHead_of_nameChar (hc : isNameChar c = true) (h : s.step position c = .ok next) :
    next.mode.IsHead := by
  have hblank := isAsciiBlank_eq_false_of_isNameChar hc
  have hdelimiter := isDelimiter_eq_false_iff.1 (isDelimiter_eq_false_of_isNameChar hc)
  obtain ⟨groups, pending, mode⟩ := s
  cases mode with
  | term =>
    simp only [State.step, State.stepTerm] at h
    split_ifs at h with hskip hopen
    · rw [hblank] at hskip
      cases hskip
    · exact absurd hopen hdelimiter.2.2.1
    · cases h
      trivial
    · exact absurd h not_unexpected_eq_ok
  | name =>
    simp only [State.step, if_pos hc] at h
    cases h
    trivial
  | openParenthesis =>
    simp [State.step, State.stepOpenParenthesis, hblank, hdelimiter, unexpected] at h
  | operator =>
    have hsign : Joiner.ofSign? c = none := by simp [Joiner.ofSign?, hdelimiter]
    cases groups with
    | nil => simp [State.step, State.stepOperator, hblank, hsign, unexpected] at h
    | cons => simp [State.step, State.stepOperator, hblank, hsign, hdelimiter, unexpected] at h
  | call start outer inner mode => exact isHead_of_stepCall hc h

theorem Mode.IsHead.blank (hs : s.mode.IsHead) (hc : Text.isAsciiBlank c = true)
    (h : s.step position c = .ok next) : next.mode.IsHead := by
  have hname := isNameChar_eq_false_of_isAsciiBlank hc
  have hdelimiter := isDelimiter_eq_false_iff.1 (isDelimiter_eq_false_of_isAsciiBlank hc)
  obtain ⟨groups, pending, mode⟩ := s
  cases mode with
  | term | operator => cases hs
  | name start name =>
    have hnext : State.step ⟨groups, pending, .name start name⟩ position c =
        .ok ⟨groups, pending, .openParenthesis start name⟩ := by
      simp [State.step, State.stepOpenParenthesis, hname, hc]
    cases hnext.symm.trans h
    trivial
  | openParenthesis start name =>
    have hnext : State.step ⟨groups, pending, .openParenthesis start name⟩ position c =
        .ok ⟨groups, pending, .openParenthesis start name⟩ := by
      simp [State.step, State.stepOpenParenthesis, hc]
    cases hnext.symm.trans h
    trivial
  | call start outer inner mode =>
    cases mode with
    | first | key | value | next => cases hs
    | keyName keyStart key =>
      have hnext : State.step ⟨groups, pending, .call start outer inner (.keyName keyStart key)⟩
          position c = .ok ⟨groups, pending, .call start outer inner (.colon keyStart key)⟩ := by
        simp [State.step, State.stepCall, stepColon, hname, hc, Except.map]
      cases hnext.symm.trans h
      trivial
    | colon keyStart key =>
      have hnext : State.step ⟨groups, pending, .call start outer inner (.colon keyStart key)⟩
          position c = .ok ⟨groups, pending, .call start outer inner (.colon keyStart key)⟩ := by
        simp [State.step, State.stepCall, stepColon, hc, Except.map]
      cases hnext.symm.trans h
      trivial
    | token keyStart key tokenStart raw =>
      have hnext : State.step
          ⟨groups, pending, .call start outer inner (.token keyStart key tokenStart raw)⟩ position c =
          .ok ⟨groups, pending, .call start outer inner
            (.token keyStart key tokenStart (raw.push c))⟩ := by
        simp [State.step, State.stepCall, State.stepToken, hdelimiter]
      cases hnext.symm.trans h
      trivial

/-- Behind what may be a name, an opening parenthesis begins a call. -/
theorem Mode.IsHead.parenthesis (hs : s.mode.IsHead) (h : s.step position '(' = .ok next) :
    ∃ start outer name, next = next.inCall start outer ⟨name, []⟩ .first := by
  obtain ⟨groups, pending, mode⟩ := s
  cases mode with
  | term | operator => cases hs
  | name start name =>
    cases h
    exact ⟨start, [], name, rfl⟩
  | openParenthesis start name =>
    cases h
    exact ⟨start, [], name, rfl⟩
  | call start outer inner mode =>
    cases mode with
    | first | key | value | next => cases hs
    | keyName | colon => cases h
    | token keyStart key tokenStart raw =>
      simp only [State.step, State.stepCall, State.stepToken] at h
      split_ifs at h with hend
      · simp at hend
      · split at h
        · cases h
          exact ⟨start, _, _, rfl⟩
        · exact absurd h not_unexpected_eq_ok

/-- Only the last character of the name counts. -/
theorem isHead_of_reads_name (hname : IsName name) (h : s.Reads position name last) :
    last.mode.IsHead := by
  obtain rfl | ⟨u, c, rfl⟩ := List.eq_nil_or_concat' name
  · cases hname
  · obtain ⟨reached, -, hlast⟩ := State.reads_append_iff.1 h
    obtain ⟨next, hnext, hnil⟩ := State.reads_cons_iff.1 hlast
    cases hnil
    exact isHead_of_nameChar (hname.isNameChar c (by simp)) hnext

theorem Mode.IsHead.reads (hs : s.mode.IsHead) (hblanks : IsBlanks blanks)
    (h : s.Reads position blanks last) : last.mode.IsHead := by
  induction blanks generalizing s position with
  | nil =>
    cases h
    exact hs
  | cons c rest ih =>
    obtain ⟨hc, hrest⟩ := List.forall_mem_cons.1 hblanks
    obtain ⟨next, hnext, hlast⟩ := State.reads_cons_iff.1 h
    exact ih (hs.blank hc hnext) hrest hlast

/-- A name and an opening parenthesis begin a call wherever they have been read. -/
theorem exists_eq_inCall_of_reads (hname : IsName name) (hblanks : IsBlanks blanks)
    (h : s.Reads position (name ++ blanks ++ ['(']) last) :
    ∃ start outer name, last = last.inCall start outer ⟨name, []⟩ .first := by
  obtain ⟨reached, hreached, hlast⟩ := State.reads_append_iff.1 h
  obtain ⟨named, hnamed, hblank⟩ := State.reads_append_iff.1 hreached
  obtain ⟨next, hnext, hnil⟩ := State.reads_cons_iff.1 hlast
  cases hnil
  exact ((isHead_of_reads_name hname hnamed).reads hblanks hblank).parenthesis hnext

/-- In a call, arguments, a comma and the name behind it. -/
theorem exists_reads_furtherName {args : List (String × Value)} (hfirst : IsBlanks first)
    (hargs : Spells w (.arguments args)) (hdistinct : (args.map Prod.fst).Nodup)
    (hgap : IsBlanks gap) (hafter : IsBlanks after) (hkey : IsName key) (s : State) (start : Nat)
    (outer : List OpenArgument) (name : String) (position : Nat) :
    ∃ keyStart, (s.inCall start outer ⟨name, []⟩ .first).Reads position
      (first ++ (w ++ gap ++ [',']) ++ after ++ key)
      (s.inCall start outer ⟨name, Keyed.ofList args⟩ (.keyName keyStart (String.ofList key))) := by
  have hskip := State.reads_blanks_inCall s start outer ⟨name, []⟩ (Or.inl rfl) hfirst position
  obtain ⟨commaStop, hcomma⟩ : ∃ commaStop, (s.inCall start outer ⟨name, []⟩ .first).Reads
      (position + utf8Len first) (w ++ gap ++ [','])
      (s.inCall start outer ⟨name, Keyed.ofList args⟩ (.key commaStop)) :=
    ⟨_, Phrase.isRead_of_spells hargs hdistinct s start outer name _ gap ',' hgap (Or.inl rfl)⟩
  have hblanks := State.reads_blanks_inCall s start outer ⟨name, Keyed.ofList args⟩
    (Or.inr (Or.inr (Or.inl ⟨commaStop, rfl⟩))) hafter
    (position + utf8Len (first ++ (w ++ gap ++ [','])))
  obtain ⟨keyStart, hname⟩ := State.reads_keyName s start outer ⟨name, Keyed.ofList args⟩
    (Or.inr ⟨commaStop, rfl⟩) hkey (position + utf8Len (first ++ (w ++ gap ++ [',']) ++ after))
  exact ⟨keyStart, ((hskip.append hcomma).append hblanks).append hname⟩

/-- The sign behind the name of an argument leaves the argument open. -/
theorem exists_step_openArgument (hsign : Text.isAsciiBlank sign = true ∨ sign = ':') (s : State)
    (start : Nat) (outer : List OpenArgument) (inner : OpenCall) (keyStart : Nat) (key : String)
    (position : Nat) :
    ∃ next, (s.inCall start outer inner (.keyName keyStart key)).step position sign = .ok next ∧
      ⟨inner, key, keyStart⟩ ∈ next.openArguments := by
  rcases hsign with hblank | rfl
  · have hname := isNameChar_eq_false_of_isAsciiBlank hblank
    have hnext : (s.inCall start outer inner (.keyName keyStart key)).step position sign =
        .ok (s.inCall start outer inner (.colon keyStart key)) := by
      simp [State.step, State.stepCall, stepColon, hname, hblank, Except.map]
    exact ⟨_, hnext, List.mem_cons_self ..⟩
  · exact ⟨s.inCall start outer inner (.value keyStart key), rfl, List.mem_cons_self ..⟩

theorem State.Reads.unique {other : State} (h : s.Reads position w last)
    (hother : s.Reads position w other) : last = other :=
  congrArg Prod.fst (Except.ok.inj (h.symm.trans hother))

theorem RepeatsName.exists_isRepeated (hw : RepeatsName w) (h : s.Reads position w last) :
    ∃ argument ∈ last.openArguments, argument.IsRepeated := by
  obtain @⟨name, before, first, w, gap, after, key, args, sign, hname, hbefore, hfirst, hargs,
    hdistinct, hgap, hafter, hkey, hrepeated, hsign⟩ := hw
  have hsplit : name ++ before ++ '(' :: first ++ w ++ gap ++ ',' :: after ++ key ++ [sign] =
      name ++ before ++ ['('] ++ (first ++ (w ++ gap ++ [',']) ++ after ++ key ++ [sign]) := by
    simp
  rw [hsplit] at h
  obtain ⟨reached, hhead, hrest⟩ := State.reads_append_iff.1 h
  obtain ⟨start, outer, called, hcalled⟩ := exists_eq_inCall_of_reads hname hbefore hhead
  rw [hcalled] at hrest
  obtain ⟨keyStart, hkeyName⟩ := exists_reads_furtherName hfirst hargs hdistinct hgap hafter hkey
    reached start outer called (position + utf8Len (name ++ before ++ ['(']))
  obtain ⟨next, hnext, hmem⟩ := exists_step_openArgument hsign reached start outer
    ⟨called, Keyed.ofList args⟩ keyStart (String.ofList key) _
  obtain rfl := hrest.unique (hkeyName.append (State.reads_singleton hnext))
  exact ⟨_, hmem, (Keyed.contains_ofList_iff args _).2 hrepeated⟩

theorem RepeatsArgument.exists_isRepeated (ht : RepeatsArgument t) (h : s.Reads position t last) :
    ∃ argument ∈ last.openArguments, argument.IsRepeated := by
  obtain ⟨before, w, after, rfl, hw⟩ := ht
  obtain ⟨behind, hbehind, hafter⟩ := State.reads_append_iff.1 h
  obtain ⟨reached, -, hreached⟩ := State.reads_append_iff.1 hbehind
  obtain ⟨argument, hmem, hrepeated⟩ := hw.exists_isRepeated hreached
  exact ⟨argument, hafter.mem_openArguments hmem hrepeated, hrepeated⟩

theorem exists_isRepeated_iff (h : State.Reads {} 0 t s) :
    (∃ argument ∈ s.openArguments, argument.IsRepeated) ↔ RepeatsArgument t := by
  refine ⟨fun ⟨argument, hmem, hrepeated⟩ => ?_, fun ht => ht.exists_isRepeated h⟩
  have hstart : State.Describes {} [] := .term (.start IsBlanks.nil)
  have hmarked : State.IsMarked [] {} := trivial
  exact (hstart.run h).repeatsArgument (hmarked.reads h) hmem hrepeated

/-- What has been read without a problem is the beginning of an expression, except with a repeated
argument name. -/
theorem exists_read_eq_ok_iff (h : State.Reads {} 0 t s) :
    (∃ rest tree, read (String.ofList (t ++ rest)) = .ok tree) ↔ ¬ RepeatsArgument t := by
  have hread : ∀ rest, read (String.ofList (t ++ rest)) = s.readOn (0 + utf8Len t) rest := by
    intro rest
    rw [← h.readOn_append rest, read, String.toList_ofList]
    rfl
  simp only [hread]
  rw [← exists_isRepeated_iff h]
  constructor
  · rintro ⟨rest, tree, hok⟩ ⟨argument, hmem, hrepeated⟩
    exact State.not_readOn_eq_ok hmem hrepeated hok
  · intro hnone
    exact State.isCompletable_of_forall_not_isRepeated
      (fun argument hmem hrepeated => hnone ⟨argument, hmem, hrepeated⟩) _

end

/-- A text that is rejected is rejected at one of its characters or at its end. There stands what is
found, unless a repeated argument is told, at its name. The characters before that place are the
beginning of an expression, unless a call in them has an argument name twice. -/
theorem rejected_behind_a_beginning {text : String} {p : Problem} (h : read text = .error p) :
    p.position ≤ text.utf8ByteSize ∧ String.Pos.Raw.Valid text ⟨p.position⟩ ∧
    ∃ before after, text.toList = before ++ after ∧ p.position = utf8Len before ∧
      ((∃ key, p.expected = .newArgument ∧ p.found = .repeatedArgument key) ∨
        p.found = Found.inFront after ∧
          (p.found = .endOfInput ↔ p.position = text.utf8ByteSize)) ∧
      ((∃ rest tree, read (String.ofList (before ++ rest)) = .ok tree) ↔
        ¬ RepeatsArgument before) := by
  have hmarked : State.IsMarked [] {} := trivial
  obtain ⟨u, rest, htext, ⟨reached, hreads⟩, htold⟩ := hmarked.exists_isToldIn h
  obtain ⟨before, after, rfl, hposition, hfound⟩ := htold
  obtain ⟨s, hs, -⟩ := State.reads_append_iff.1 hreads
  have htext' : text.toList = before ++ (after ++ rest) := by rw [htext, List.append_assoc]
  have hsize : text.utf8ByteSize = utf8Len before + utf8Len (after ++ rest) := by
    rw [← String.utf8Len_append, ← htext', ← String.utf8ByteSize_ofList, String.ofList_toList]
  have hend : Found.inFront (after ++ rest) = .endOfInput ↔ p.position = text.utf8ByteSize := by
    rw [Found.inFront_eq_endOfInput_iff]
    omega
  refine ⟨by omega, .intro ⟨before, after ++ rest, htext'.symm, by rw [hposition]⟩, before,
    after ++ rest, htext', hposition, hfound.imp_right fun hfound => ?_, exists_read_eq_ok_iff hs⟩
  exact ⟨hfound, by rwa [hfound]⟩

/-- Behind the name of an argument stands no colon, after a character of two bytes. -/
theorem rejected_behind_a_beginning_of_name :
    String.Pos.Raw.Valid "f(a: é, b 1)" ⟨11⟩ ∧
    ∃ before after, "f(a: é, b 1)".toList = before ++ after ∧ 11 = utf8Len before ∧
      Found.character '1' = Found.inFront after ∧
      ((∃ rest tree, read (String.ofList (before ++ rest)) = .ok tree) ↔
        ¬ RepeatsArgument before) := by
  have hread : read "f(a: é, b 1)" = .error ⟨11, .mark ':', .character '1'⟩ := by rfl
  obtain ⟨-, hvalid, before, after, htext, hposition, hfound, hviable⟩ :=
    rejected_behind_a_beginning hread
  refine ⟨hvalid, before, after, htext, hposition, ?_, hviable⟩
  rcases hfound with ⟨key, hexpected, -⟩ | ⟨hfound, -⟩
  · cases hexpected
  · exact hfound

end Almanac.Expression

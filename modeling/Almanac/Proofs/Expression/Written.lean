import Almanac.Proofs.Expression.Progress
import Almanac.Proofs.Text.Numeral
import Almanac.Proofs.Text.Split

/-!
Expressions that have been read are written so that they read back as themselves. What is written
is spelled by the grammar again: a call with its arguments in the order in which they are filed, a
bare token with the value that it had, and a join in its own parentheses.
-/

namespace Almanac.Expression

open String (utf8Len)

/-- The expression without the places of its calls. -/
def Tree.withoutSpans : Tree → Tree
  | .call name args _ => .call name args ⟨0, 0⟩
  | .join joiner left right => .join joiner left.withoutSpans right.withoutSpans

/-- The phrase is spelled by the way in which it is written. Where a chain starts makes no
difference but for its spans. -/
def Phrase.IsWritten : Phrase → Prop
  | .call name args => Spells (callText name (writtenArguments args)).toList (.call name args)
  | .arguments args =>
    ∀ argument ∈ args, Spells (writtenArgument argument).toList (.argument argument.1 argument.2)
  | .argument key v => Spells (writtenArgument (key, v)).toList (.argument key v)
  | .value v => Spells v.written.toList (.value v)
  | .term _ tree | .chain _ tree =>
    ∀ start, ∃ again, Spells tree.written.toList (.term start again) ∧
      again.withoutSpans = tree.withoutSpans

section

variable {name key token : List Char} {args : List (String × Value)} {v : Value} {n : Int}
  {w : List Char}

theorem writtenArguments_eq_map (args : List (String × Value)) :
    writtenArguments args = args.map writtenArgument := by
  induction args with
  | nil => rfl
  | cons argument rest ih => rw [writtenArguments, List.map_cons, ih]

theorem spells_argument (hkey : IsName key) (h : Spells w (.value v)) :
    Spells (key ++ ':' :: ' ' :: w) (.argument (String.ofList key) v) := by
  have hblank : IsBlanks [' '] := IsBlanks.cons rfl IsBlanks.nil
  simpa using Spells.argument hkey IsBlanks.nil hblank h

theorem spells_writtenArgument (hkey : IsName key) (h : Spells v.written.toList (.value v)) :
    Spells (writtenArgument (String.ofList key, v)).toList (.argument (String.ofList key) v) := by
  simpa [writtenArgument] using spells_argument hkey h

section Arguments

variable {ι : Type} {entries : List ι}

/-- Induction on the arguments from the last one on, as a list of arguments grows at its end. -/
theorem spells_arguments {text : ι → String} {argument : ι → String × Value} (hsome : entries ≠ [])
    (hentries : ∀ entry ∈ entries,
      Spells (text entry).toList (.argument (argument entry).1 (argument entry).2)) :
    Spells (", ".intercalate (entries.map text)).toList (.arguments (entries.map argument)) := by
  induction entries using List.reverseRecOn with
  | nil => exact absurd rfl hsome
  | append_singleton rest last ih =>
    have hlast := hentries last (List.mem_append_right rest (List.mem_singleton_self last))
    by_cases hrest : rest = []
    · subst hrest
      simpa using Spells.firstArgument hlast
    · have hbefore := ih hrest fun entry hmem => hentries entry (List.mem_append_left _ hmem)
      have hblank : IsBlanks [' '] := IsBlanks.cons rfl IsBlanks.nil
      have hmap : rest.map text ≠ [] := by simpa using hrest
      rw [List.map_append, String.intercalate_append_of_ne_nil hmap (by simp)]
      have hspells := Spells.furtherArgument hbefore IsBlanks.nil hblank hlast
      simpa [-String.toList_intercalate] using hspells

/-- Arguments of different names may stand in any order. -/
theorem spells_callText (text : ι → String) (argument : ι → String × Value) (hname : IsName name)
    (hdistinct : (entries.map fun entry => (argument entry).1).Nodup)
    (hentries : ∀ entry ∈ entries,
      Spells (text entry).toList (.argument (argument entry).1 (argument entry).2)) :
    Spells (callText (String.ofList name) (entries.map text)).toList
      (.call (String.ofList name) (Keyed.ofList (entries.map argument))) := by
  by_cases hsome : entries = []
  · subst hsome
    simpa [callText, Keyed.ofList] using Spells.emptyCall hname IsBlanks.nil IsBlanks.nil
  · have hkeys : ((entries.map argument).map Prod.fst).Nodup := by
      rwa [List.map_map]
    have hspells := Spells.call hname IsBlanks.nil IsBlanks.nil
      (spells_arguments hsome hentries) IsBlanks.nil hkeys
    simpa [callText, -String.toList_intercalate] using hspells

end Arguments

theorem spells_writtenCall (hname : IsName name) (hsorted : Keyed.IsSorted args)
    (hargs : ∀ argument ∈ args,
      Spells (writtenArgument argument).toList (.argument argument.1 argument.2)) :
    Spells (callText (String.ofList name) (writtenArguments args)).toList
      (.call (String.ofList name) args) := by
  have hspells := spells_callText writtenArgument id hname hsorted.nodup_keys hargs
  rwa [List.map_id, hsorted.ofList_eq_self, ← writtenArguments_eq_map] at hspells

/-- A token that has no blanks to drop. -/
theorem spells_token (hsome : token ≠ []) (hsolid : ∀ c ∈ token, Text.isBlank c = false)
    (hrun : ∀ c ∈ token, isDelimiter c = false) : Spells token (.value (Value.ofToken token)) := by
  have hkept : token.filter (!Text.isBlank ·) = token :=
    List.filter_eq_self.2 fun c hc => by simp [hsolid c hc]
  obtain ⟨c, hc⟩ := List.exists_mem_of_ne_nil token hsome
  have hspells := Spells.token hrun ⟨c, hc, hsolid c hc⟩
  rw [hkept] at hspells
  exact hspells

theorem isBlank_eq_false_of_mem_integer {c : Char} (hc : c ∈ (Text.integer n).toList) :
    Text.isBlank c = false := by
  rcases Text.eq_minus_or_isDigit_of_mem_integer hc with rfl | hdigit
  · decide
  · exact Text.isBlank_eq_false_of_isDigit hdigit

theorem isDelimiter_eq_false_of_isDigit {c : Char} (h : c.isDigit = true) :
    isDelimiter c = false := by
  refine isDelimiter_eq_false_of_isNameChar ?_
  simp [isNameChar, Char.isAlphanum, h]

theorem isDelimiter_eq_false_of_mem_integer {c : Char} (hc : c ∈ (Text.integer n).toList) :
    isDelimiter c = false := by
  rcases Text.eq_minus_or_isDigit_of_mem_integer hc with rfl | hdigit
  · decide
  · exact isDelimiter_eq_false_of_isDigit hdigit

/-- What reads as a number, without a plus sign, is neither a list nor a truth value. -/
theorem ofToken_eq_integer (hchars : ∀ c ∈ token, c = '-' ∨ c.isDigit = true)
    (h : Text.readWord64? token = some n) : Value.ofToken token = .integer n := by
  have hnot : ∀ c : Char, c ≠ '-' → c.isDigit = false → c ∉ token := by
    intro c hminus hdigit hc
    rcases hchars c hc with rfl | hc
    · exact hminus rfl
    · rw [hdigit] at hc
      cases hc
  have hlist : ';' ∉ token := hnot ';' (by decide) rfl
  have htrue : token ≠ "true".toList := fun heq => hnot 't' (by decide) rfl (heq ▸ by decide)
  have hfalse : token ≠ "false".toList := fun heq => hnot 'f' (by decide) rfl (heq ▸ by decide)
  unfold Value.ofToken
  rw [if_neg hlist, if_neg htrue, if_neg hfalse, h]

theorem ofToken_integer (h : Text.IsWord64 n) :
    Value.ofToken (Text.integer n).toList = .integer n :=
  ofToken_eq_integer (fun _ hc => Text.eq_minus_or_isDigit_of_mem_integer hc)
    (Text.readWord64?_integer h)

/-- The value of a token is written as the token, except that a number loses a plus sign and
leading zeros. -/
theorem written_ofToken (hsolid : ∀ c ∈ token, Text.isBlank c = false) :
    (Value.ofToken token).written.toList = token ∨
      ∃ n, Text.IsWord64 n ∧ Value.ofToken token = .integer n := by
  unfold Value.ofToken
  split
  · have htrim : ∀ piece ∈ Text.split ';' token, Text.trim piece = piece := fun piece hpiece =>
      Text.trim_eq_self fun c hc => hsolid c (Text.mem_of_mem_split hpiece hc)
    have hpieces : (Text.split ';' token).map (fun piece => String.ofList (Text.trim piece)) =
        (Text.split ';' token).map String.ofList :=
      List.map_congr_left fun piece hpiece => by rw [htrim piece hpiece]
    left
    rw [hpieces, Value.written, String.toList_intercalate, List.map_map]
    simpa [Function.comp_def] using Text.intercalate_split ';' token
  · split
    · rename_i htrue
      exact Or.inl htrue.symm
    · split
      · rename_i hfalse
        exact Or.inl hfalse.symm
      · split
        · rename_i n hn
          exact Or.inr ⟨n, Text.isWord64_of_readWord64?_eq_some hn, rfl⟩
        · left
          rw [Value.written, String.toList_ofList]

theorem spells_written_ofToken (hsome : token ≠ [])
    (hsolid : ∀ c ∈ token, Text.isBlank c = false) (hrun : ∀ c ∈ token, isDelimiter c = false) :
    Spells (Value.ofToken token).written.toList (.value (Value.ofToken token)) := by
  rcases written_ofToken hsolid with hwritten | ⟨n, hn, hvalue⟩
  · rw [hwritten]
    exact spells_token hsome hsolid hrun
  · rw [hvalue, Value.written]
    have hspells := spells_token (Text.integer_toList_ne_nil n)
      (fun c hc => isBlank_eq_false_of_mem_integer hc)
      (fun c hc => isDelimiter_eq_false_of_mem_integer hc)
    rw [ofToken_integer hn] at hspells
    exact hspells

theorem isWritten_join {joiner : Joiner} {left right : Tree} {start middle : Nat}
    (hleft : (Phrase.chain start left).IsWritten) (hright : (Phrase.term middle right).IsWritten) :
    (Phrase.chain start (.join joiner left right)).IsWritten := by
  intro start
  have hblank : IsBlanks [' '] := IsBlanks.cons rfl IsBlanks.nil
  obtain ⟨left', hleft, hleftShape⟩ := hleft (start + utf8Len ['('])
  obtain ⟨right', hright, hrightShape⟩ := hright
    (start + utf8Len ['('] + utf8Len (left.written.toList ++ [' '] ++ joiner.sign :: [' ']))
  have hspells := Spells.parentheses IsBlanks.nil
    (.join (.single hleft) hblank hblank hright) IsBlanks.nil
  refine ⟨.join joiner left' right', ?_, ?_⟩
  · simpa [Tree.written] using hspells
  · rw [Tree.withoutSpans, Tree.withoutSpans, hleftShape, hrightShape]

/-- Induction on the way that the phrase was spelled before. -/
theorem isWritten_of_spells {p : Phrase} (h : Spells w p) : p.IsWritten := by
  induction h with
  | emptyCall hname _ _ =>
    exact spells_writtenCall hname List.Pairwise.nil fun argument hmem => nomatch hmem
  | @call name before first w last args hname _ _ _ _ _ ih =>
    exact spells_writtenCall hname (Keyed.isSorted_ofList args) fun argument hmem =>
      ih argument (Keyed.mem_of_mem_ofList hmem)
  | firstArgument _ ih =>
    intro argument hmem
    rw [List.mem_singleton.1 hmem]
    exact ih
  | furtherArgument _ _ _ _ ihArgs ih =>
    intro argument hmem
    rcases List.mem_append.1 hmem with hmem | hmem
    · exact ihArgs argument hmem
    · rw [List.mem_singleton.1 hmem]
      exact ih
  | argument hkey _ _ _ ih => exact spells_writtenArgument hkey ih
  | nested _ ih => exact .nested ih
  | token hrun hsome =>
    refine spells_written_ofToken (filter_isBlank_ne_nil_iff.2 hsome) ?_ ?_
    · exact fun c hc => by simpa using (List.mem_filter.1 hc).2
    · exact fun c hc => hrun c (List.mem_filter.1 hc).1
  | term _ ih => exact fun start => ⟨_, .term ih, rfl⟩
  | parentheses _ _ _ ih => exact ih
  | single _ ih => exact ih
  | join _ _ _ _ ihLeft ihRight => exact isWritten_join ihLeft ihRight

end

/-- What has been read is written as a text that the reader accepts, with the same answer up to the
places of the calls. -/
theorem read_written {text : String} {tree : Tree} (h : read text = .ok tree) :
    ∃ again, read tree.written = .ok again ∧ again.withoutSpans = tree.withoutSpans := by
  obtain ⟨before, w, after, -, -, -, hspells⟩ := isExpression_of_read_eq_ok h
  obtain ⟨again, hagain, hshape⟩ := isWritten_of_spells hspells 0
  exact ⟨again, read_of_spells (.single hagain), hshape⟩

/-- A number with a plus sign, a list with an empty piece, a token with a blank inside, a nested
call, arguments out of order, and joins that group to the left without parentheses. -/
theorem read_written_grouped_to_the_left :
    ∃ tree, read "a (x:+07, b : p;;q)|b(y: c (z:tr ue)) & d()" = .ok tree ∧
      tree.written = "((a(b: p;;q, x: 7) | b(y: c(z: true))) & d())" ∧
      ∃ again, read tree.written = .ok again ∧ again.withoutSpans = tree.withoutSpans := by
  have hread : read "a (x:+07, b : p;;q)|b(y: c (z:tr ue)) & d()" =
      .ok (.join .and
        (.join .or
          (.call "a" [("b", .list ["p", "", "q"]), ("x", .integer 7)] ⟨0, 19⟩)
          (.call "b" [("y", .call "c" [("z", .boolean true)])] ⟨20, 37⟩))
        (.call "d" [] ⟨40, 43⟩)) := by rfl
  exact ⟨_, hread, by decide +kernel, read_written hread⟩

end Almanac.Expression

import Mathlib.Data.String.Basic
import Almanac.Expression.Reader

/-!
The language of expressions as a grammar:

    chain     ::= term | chain joiner term
    term      ::= call | "(" chain ")"
    call      ::= name "(" ")" | name "(" arguments ")"
    arguments ::= argument | arguments "," argument
    argument  ::= name ":" value
    value     ::= call | token

Blanks may stand between any two signs. A token is a run of characters that are no delimiters; as a
blank, a comma or a closing parenthesis is all that can follow a value, the run never stops short of
a character that could continue it. A chain knows where it starts, so that its calls have their
places in the text.
-/

namespace Almanac.Expression

open String (utf8Len)

/-- Blanks that may stand between signs, any number of them. -/
def IsBlanks (text : List Char) : Prop :=
  ∀ c ∈ text, Text.isAsciiBlank c = true

/-- A letter or underscore, and letters, digits and underscores after it. -/
def IsName : List Char → Prop
  | [] => False
  | c :: rest => isNameStart c = true ∧ ∀ d ∈ rest, isNameChar d = true

instance (name : List Char) : Decidable (IsName name) :=
  match name with
  | [] => isFalse id
  | c :: rest =>
    decidable_of_iff (isNameStart c = true ∧ rest.all isNameChar = true)
      (and_congr_right' List.all_eq_true)

/-- Whether a character never stands in a token. -/
def isDelimiter (c : Char) : Bool :=
  c = ',' || c = ')' || c = '(' || c = '&' || c = '|'

/-- What a part of an expression stands for. -/
inductive Phrase where
  | call (name : String) (args : List (String × Value))
  /-- Arguments in the order in which they are written. -/
  | arguments (args : List (String × Value))
  | argument (key : String) (value : Value)
  | value (v : Value)
  /-- A term that starts at a byte of the text. -/
  | term (start : Nat) (tree : Tree)
  /-- A chain that starts at a byte of the text. -/
  | chain (start : Nat) (tree : Tree)

/-- The characters are a way to write the phrase. -/
inductive Spells : List Char → Phrase → Prop where
  | emptyCall {name before inside : List Char} (hname : IsName name) (hbefore : IsBlanks before)
      (hinside : IsBlanks inside) :
      Spells (name ++ before ++ '(' :: inside ++ [')']) (.call (String.ofList name) [])
  /-- No argument name stands twice, and the arguments are filed by their names. -/
  | call {name before first w last : List Char} {args : List (String × Value)}
      (hname : IsName name) (hbefore : IsBlanks before) (hfirst : IsBlanks first)
      (hargs : Spells w (.arguments args)) (hlast : IsBlanks last)
      (hdistinct : (args.map Prod.fst).Nodup) :
      Spells (name ++ before ++ '(' :: first ++ w ++ last ++ [')'])
        (.call (String.ofList name) (Keyed.ofList args))
  | firstArgument {w : List Char} {key : String} {v : Value} (h : Spells w (.argument key v)) :
      Spells w (.arguments [(key, v)])
  | furtherArgument {u before after w : List Char} {args : List (String × Value)} {key : String}
      {v : Value} (hargs : Spells u (.arguments args)) (hbefore : IsBlanks before)
      (hafter : IsBlanks after) (h : Spells w (.argument key v)) :
      Spells (u ++ before ++ ',' :: after ++ w) (.arguments (args ++ [(key, v)]))
  | argument {key before after w : List Char} {v : Value} (hkey : IsName key)
      (hbefore : IsBlanks before) (hafter : IsBlanks after) (h : Spells w (.value v)) :
      Spells (key ++ before ++ ':' :: after ++ w) (.argument (String.ofList key) v)
  | nested {w : List Char} {name : String} {args : List (String × Value)}
      (h : Spells w (.call name args)) : Spells w (.value (.call name args))
  /-- Every blank of Unicode is dropped from a token, and something else has to be left. -/
  | token {w : List Char} (hrun : ∀ c ∈ w, isDelimiter c = false)
      (hsome : ∃ c ∈ w, Text.isBlank c = false) :
      Spells w (.value (Value.ofToken (w.filter (!Text.isBlank ·))))
  | term {start : Nat} {w : List Char} {name : String} {args : List (String × Value)}
      (h : Spells w (.call name args)) :
      Spells w (.term start (.call name args ⟨start, start + utf8Len w⟩))
  | parentheses {start : Nat} {before w after : List Char} {tree : Tree} (hbefore : IsBlanks before)
      (h : Spells w (.chain (start + utf8Len ('(' :: before)) tree)) (hafter : IsBlanks after) :
      Spells ('(' :: before ++ w ++ after ++ [')']) (.term start tree)
  | single {start : Nat} {w : List Char} {tree : Tree} (h : Spells w (.term start tree)) :
      Spells w (.chain start tree)
  | join {start : Nat} {u before after w : List Char} {joiner : Joiner} {left right : Tree}
      (hleft : Spells u (.chain start left)) (hbefore : IsBlanks before) (hafter : IsBlanks after)
      (hright : Spells w
        (.term (start + utf8Len (u ++ before ++ joiner.sign :: after)) right)) :
      Spells (u ++ before ++ joiner.sign :: after ++ w) (.chain start (.join joiner left right))

/-- A whole text is a chain with blanks at both ends. -/
def IsExpression (text : List Char) (tree : Tree) : Prop :=
  ∃ before w after, text = before ++ w ++ after ∧ IsBlanks before ∧ IsBlanks after ∧
    Spells w (.chain (utf8Len before) tree)

theorem IsBlanks.nil : IsBlanks [] := by
  intro c hc
  cases hc

theorem IsBlanks.cons {c : Char} {rest : List Char} (hc : Text.isAsciiBlank c = true)
    (hrest : IsBlanks rest) : IsBlanks (c :: rest) :=
  List.forall_mem_cons.2 ⟨hc, hrest⟩

theorem IsBlanks.append {before after : List Char} (hbefore : IsBlanks before)
    (hafter : IsBlanks after) : IsBlanks (before ++ after) :=
  List.forall_mem_append.2 ⟨hbefore, hafter⟩

theorem IsBlanks.concat {before : List Char} {c : Char} (hbefore : IsBlanks before)
    (hc : Text.isAsciiBlank c = true) : IsBlanks (before ++ [c]) :=
  hbefore.append (IsBlanks.cons hc IsBlanks.nil)

/-- The blanks between signs are blanks of Unicode, so a token loses them. -/
theorem IsBlanks.filter_eq_nil {text : List Char} (h : IsBlanks text) :
    text.filter (!Text.isBlank ·) = [] := by
  refine List.filter_eq_nil_iff.2 fun c hc => ?_
  simp [Text.isBlank_of_isAsciiBlank (h c hc)]

/-- A token keeps some character if it is more than blanks. -/
theorem filter_isBlank_ne_nil_iff {text : List Char} :
    text.filter (!Text.isBlank ·) ≠ [] ↔ ∃ c ∈ text, Text.isBlank c = false := by
  simp [List.filter_eq_nil_iff]

theorem IsName.concat {name : List Char} {c : Char} (h : IsName name) (hc : isNameChar c = true) :
    IsName (name ++ [c]) := by
  cases name with
  | nil => cases h
  | cons first rest =>
    refine ⟨h.1, fun d hd => ?_⟩
    rcases List.mem_append.1 hd with hd | hd
    · exact h.2 d hd
    · rw [List.mem_singleton.1 hd]
      exact hc

theorem isName_singleton {c : Char} (h : isNameStart c = true) : IsName [c] := by
  refine ⟨h, fun d hd => ?_⟩
  cases hd

theorem isNameChar_of_isNameStart {c : Char} (h : isNameStart c = true) : isNameChar c = true := by
  unfold isNameStart isNameChar Char.isAlphanum at *
  simp only [Bool.or_eq_true] at *
  rcases h with h | h
  · exact Or.inl (Or.inl h)
  · exact Or.inr h

theorem IsName.isNameChar {name : List Char} (h : IsName name) :
    ∀ c ∈ name, isNameChar c = true := by
  cases name with
  | nil => cases h
  | cons first rest => exact List.forall_mem_cons.2 ⟨isNameChar_of_isNameStart h.1, h.2⟩

theorem isNameChar_eq_false_of_isAsciiBlank {c : Char} (h : Text.isAsciiBlank c = true) :
    isNameChar c = false := by
  simp only [Text.isAsciiBlank, Bool.or_eq_true, decide_eq_true_eq] at h
  rcases h with (((rfl | rfl) | rfl) | rfl) | rfl <;> decide

theorem isDelimiter_eq_false_of_isAsciiBlank {c : Char} (h : Text.isAsciiBlank c = true) :
    isDelimiter c = false := by
  simp only [Text.isAsciiBlank, Bool.or_eq_true, decide_eq_true_eq] at h
  rcases h with (((rfl | rfl) | rfl) | rfl) | rfl <;> decide

theorem isAsciiBlank_eq_false_of_isNameChar {c : Char} (h : isNameChar c = true) :
    Text.isAsciiBlank c = false := by
  refine Bool.eq_false_iff.2 fun hblank => ?_
  rw [isNameChar_eq_false_of_isAsciiBlank hblank] at h
  cases h

theorem isDelimiter_eq_false_of_isNameChar {c : Char} (h : isNameChar c = true) :
    isDelimiter c = false := by
  refine Bool.eq_false_iff.2 fun hdelimiter => ?_
  simp only [isDelimiter, Bool.or_eq_true, decide_eq_true_eq] at hdelimiter
  rcases hdelimiter with (((rfl | rfl) | rfl) | rfl) | rfl <;> revert h <;> decide

theorem isDelimiter_eq_false_iff {c : Char} :
    isDelimiter c = false ↔ c ≠ ',' ∧ c ≠ ')' ∧ c ≠ '(' ∧ c ≠ '&' ∧ c ≠ '|' := by
  simp [isDelimiter, and_assoc]

/-- What stands before an opening parenthesis is the name of a nested call if it is a name and then
blanks. -/
theorem nestedName?_eq_some_iff {raw : List Char} {name : String} :
    nestedName? (String.ofList raw) = some name ↔
      ∃ w before, raw = w ++ before ∧ IsName w ∧ IsBlanks before ∧ name = String.ofList w := by
  unfold nestedName?
  simp only [String.toList_ofList, Option.ite_none_right_eq_some, Bool.and_eq_true,
    Option.some.injEq, List.all_eq_true]
  constructor
  · rintro ⟨⟨hstart, hblanks⟩, rfl⟩
    refine ⟨raw.takeWhile isNameChar, raw.dropWhile isNameChar,
      List.takeWhile_append_dropWhile.symm, ?_, hblanks, rfl⟩
    cases hw : raw.takeWhile isNameChar with
    | nil =>
      rw [hw] at hstart
      cases hstart
    | cons c rest =>
      rw [hw] at hstart
      refine ⟨hstart, fun d hd => ?_⟩
      have hmem : d ∈ raw.takeWhile isNameChar := hw ▸ List.mem_cons_of_mem c hd
      exact List.all_eq_true.1 List.all_takeWhile d hmem
  · rintro ⟨w, before, rfl, hname, hbefore, rfl⟩
    obtain ⟨htake, hdrop⟩ : (w ++ before).takeWhile isNameChar = w ∧
        (w ++ before).dropWhile isNameChar = before := by
      rw [List.takeWhile_append_of_pos hname.isNameChar,
        List.dropWhile_append_of_pos hname.isNameChar]
      cases before with
      | nil => simp
      | cons c rest =>
        have hc := isNameChar_eq_false_of_isAsciiBlank (hbefore c (List.mem_cons_self ..))
        simp [hc]
    rw [htake, hdrop]
    refine ⟨⟨?_, hbefore⟩, rfl⟩
    cases w with
    | nil => cases hname
    | cons c rest => exact hname.1

end Almanac.Expression

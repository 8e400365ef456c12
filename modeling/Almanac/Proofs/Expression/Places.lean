import Almanac.Proofs.Expression.Progress

/-!
Where the calls of an expression stand. Those that it joins stand in the text from left to right,
none inside another, each from the first character of its name to the parenthesis that closes it.
What stands there is the same call when it is read alone.
-/

namespace Almanac.Expression

open String (utf8Len)

/-- What stands in a text from the byte at the start of the span up to its end. -/
def Span.slice (s : Span) (text : String) : String :=
  String.Pos.Raw.extract text ⟨s.start⟩ ⟨s.stop⟩

/-- A call stands in a text at its span, which begins and ends between characters. -/
structure Span.Holds (s : Span) (text name : String) (args : List (String × Value)) : Prop where
  valid_start : String.Pos.Raw.Valid text ⟨s.start⟩
  valid_stop : String.Pos.Raw.Valid text ⟨s.stop⟩
  start_lt_stop : s.start < s.stop
  exists_slice_eq : ∃ inside, s.slice text = name ++ inside ++ ")"
  read_slice : read (s.slice text) = .ok (.call name args ⟨0, (s.slice text).utf8ByteSize⟩)

namespace Tree

/-- The calls that are joined, from left to right. -/
def leaves : Tree → List Tree
  | call name args span => [call name args span]
  | join _ left right => left.leaves ++ right.leaves

/-- The joins, each behind those of its left side and then those of its right side. -/
def joins : Tree → List Tree
  | call _ _ _ => []
  | join joiner left right => left.joins ++ right.joins ++ [join joiner left right]

/-- A call that is spelled by a part of the characters, its span being the bytes of that part. The
characters begin at the byte `start`. -/
def StandsIn (w : List Char) (start : Nat) : Tree → Prop
  | call name args span =>
    ∃ u v x, w = u ++ v ++ x ∧ span = ⟨start + utf8Len u, start + utf8Len (u ++ v)⟩ ∧
      Spells v (.call name args)
  | join _ _ _ => False

variable {w u x : List Char} {start : Nat} {leaf tree : Tree}

theorem StandsIn.append (h : leaf.StandsIn w (start + utf8Len u)) (x : List Char) :
    leaf.StandsIn (u ++ w ++ x) start := by
  cases leaf with
  | call name args span =>
    obtain ⟨before, v, after, rfl, rfl, hcall⟩ := h
    refine ⟨u ++ before, v, after ++ x, by simp, ?_, hcall⟩
    simp only [String.utf8Len_append, Nat.add_assoc]
  | join => cases h

theorem StandsIn.bounds (h : leaf.StandsIn w start) :
    start ≤ leaf.span.start ∧ leaf.span.stop ≤ start + utf8Len w := by
  cases leaf with
  | call name args span =>
    obtain ⟨before, v, after, rfl, rfl, -⟩ := h
    simp only [span, String.utf8Len_append]
    omega
  | join => cases h

/-- The calls stand in the characters one behind the other. -/
structure IsPlaced (tree : Tree) (w : List Char) (start : Nat) : Prop where
  standsIn : ∀ leaf ∈ tree.leaves, leaf.StandsIn w start
  pairwise : (tree.leaves.map span).Pairwise fun s other => s.stop ≤ other.start

theorem IsPlaced.append (h : tree.IsPlaced w (start + utf8Len u)) (x : List Char) :
    tree.IsPlaced (u ++ w ++ x) start where
  standsIn leaf hleaf := (h.standsIn leaf hleaf).append x
  pairwise := h.pairwise

theorem isPlaced_call {name : String} {args : List (String × Value)}
    (h : Spells w (.call name args)) (start : Nat) :
    (call name args ⟨start, start + utf8Len w⟩).IsPlaced w start where
  standsIn leaf hleaf := by
    rw [List.mem_singleton.1 hleaf]
    exact ⟨[], w, [], by simp, rfl, h⟩
  pairwise := List.pairwise_singleton _ _

theorem IsPlaced.join {joiner : Joiner} {left right : Tree} (hleft : left.IsPlaced u start)
    (hright : right.IsPlaced w (start + utf8Len (u ++ x))) :
    (join joiner left right).IsPlaced (u ++ x ++ w) start where
  standsIn leaf hleaf := by
    rcases List.mem_append.1 hleaf with hleaf | hleaf
    · rw [List.append_assoc, ← List.nil_append u]
      exact (hleft.standsIn leaf hleaf).append _
    · rw [← List.append_nil (u ++ x ++ w)]
      exact (hright.standsIn leaf hleaf).append []
  pairwise := by
    rw [leaves, List.map_append, List.pairwise_append]
    refine ⟨hleft.pairwise, hright.pairwise, ?_⟩
    simp only [List.forall_mem_map]
    intro first hfirst last hlast
    have hstop := (hleft.standsIn first hfirst).bounds.2
    have hstart := (hright.standsIn last hlast).bounds.1
    rw [String.utf8Len_append] at hstart
    omega

/-- A join reaches from its first call to its last. -/
theorem span_eq (tree : Tree) :
    ∃ first ∈ tree.leaves.head?, ∃ last ∈ tree.leaves.getLast?,
      tree.span = ⟨first.span.start, last.span.stop⟩ := by
  induction tree with
  | call name args span => exact ⟨_, rfl, _, rfl, rfl⟩
  | join joiner left right ihLeft ihRight =>
    obtain ⟨first, hfirst, _, -, hleft⟩ := ihLeft
    obtain ⟨_, -, last, hlast, hright⟩ := ihRight
    refine ⟨first, ?_, last, ?_, by rw [span, hleft, hright]⟩
    · rw [leaves, List.head?_append, Option.mem_def.1 hfirst]
      rfl
    · rw [leaves, List.getLast?_append, Option.mem_def.1 hlast]
      rfl

end Tree

/-- The calls of a chain or a term stand in the characters that spell it. -/
def Phrase.IsPlaced (w : List Char) : Phrase → Prop
  | .term start tree | .chain start tree => tree.IsPlaced w start
  | _ => True

theorem isPlaced_of_spells {w : List Char} {p : Phrase} (h : Spells w p) : p.IsPlaced w := by
  induction h with
  | term h _ => exact Tree.isPlaced_call h _
  | parentheses hbefore _ hafter ih =>
    rw [List.append_assoc _ _ [')']]
    exact Tree.IsPlaced.append ih _
  | single _ ih => exact ih
  | join _ _ _ _ ihLeft ihRight =>
    rw [List.append_assoc _ _ (_ :: _)] at ihRight ⊢
    exact Tree.IsPlaced.join ihLeft ihRight
  | _ => trivial

theorem exists_eq_of_spells_call {w : List Char} {name : String} {args : List (String × Value)}
    (h : Spells w (.call name args)) : ∃ inside, w = name.toList ++ inside ++ [')'] := by
  cases h with
  | @emptyCall u before inside => exact ⟨before ++ '(' :: inside, by simp⟩
  | @call u before first w last => exact ⟨before ++ '(' :: first ++ w ++ last, by simp⟩

theorem Tree.StandsIn.holds {text name : String} {args : List (String × Value)} {span : Span}
    (h : (call name args span).StandsIn text.toList 0) : span.Holds text name args := by
  obtain ⟨u, v, x, htext, rfl, hcall⟩ := h
  simp only [Nat.zero_add]
  obtain ⟨inside, hinside⟩ := exists_eq_of_spells_call hcall
  have htext' : text = String.ofList (u ++ v ++ x) := String.toList_inj.1 (by simpa using htext)
  have hslice : Span.slice ⟨utf8Len u, utf8Len (u ++ v)⟩ text = String.ofList v := by
    rw [Span.slice, htext', String.utf8Len_append, String.extract_of_valid]
  refine ⟨?_, ?_, ?_, ⟨String.ofList inside, ?_⟩, ?_⟩
  · exact .intro ⟨u, v ++ x, by simp [htext], rfl⟩
  · exact .intro ⟨u ++ v, x, htext.symm, rfl⟩
  · have hclose : utf8Len [')'] = 1 := rfl
    simp only [hinside, String.utf8Len_append]
    omega
  · rw [hslice, hinside]
    exact String.toList_inj.1 (by simp)
  · rw [hslice, String.utf8ByteSize_ofList]
    have hspells : Spells (String.ofList v).toList (.chain 0 (.call name args ⟨0, utf8Len v⟩)) := by
      rw [String.toList_ofList, ← Nat.zero_add (utf8Len v)]
      exact .single (.term hcall)
    exact read_of_spells hspells

/-- The calls that an expression joins stand in its text one behind the other. Each of them begins
with its name and ends with the parenthesis that closes it, and the text between is read to that
call. A join stands where its calls stand, from the first to the last. -/
theorem leaves_stand_in_text {text : String} {tree : Tree} (h : read text = .ok tree) :
    (∀ name args span, .call name args span ∈ tree.leaves → span.Holds text name args) ∧
    (tree.leaves.map Tree.span).Pairwise (fun s other => s.stop ≤ other.start) ∧
    ∀ part ∈ tree.joins, ∃ first ∈ part.leaves.head?, ∃ last ∈ part.leaves.getLast?,
      part.span = ⟨first.span.start, last.span.stop⟩ := by
  obtain ⟨before, w, after, htext, -, -, hspells⟩ := isExpression_of_read_eq_ok h
  have hplaced : tree.IsPlaced w (utf8Len before) := isPlaced_of_spells hspells
  rw [← Nat.zero_add (utf8Len before)] at hplaced
  have hplaced := hplaced.append after
  rw [← htext] at hplaced
  refine ⟨fun name args span hleaf => ?_, hplaced.pairwise, fun part _ => part.span_eq⟩
  exact (hplaced.standsIn _ hleaf).holds

/-- Parentheses, which belong to no call, a character of two bytes and blanks around signs. -/
theorem leaves_stand_in_text_grouped :
    let text := " (a(x:é)|b())& c ( )"
    ∃ tree, read text = .ok tree ∧
      tree.leaves.map Tree.span = [⟨2, 9⟩, ⟨10, 13⟩, ⟨16, 21⟩] ∧
      tree.joins.map Tree.span = [⟨2, 13⟩, ⟨2, 21⟩] ∧
      Span.Holds ⟨2, 9⟩ text "a" [("x", .text "é")] ∧ Span.Holds ⟨16, 21⟩ text "c" [] := by
  intro text
  have hread : read " (a(x:é)|b())& c ( )" = .ok (.join .and
      (.join .or (.call "a" [("x", .text "é")] ⟨2, 9⟩) (.call "b" [] ⟨10, 13⟩))
      (.call "c" [] ⟨16, 21⟩)) := by rfl
  obtain ⟨hholds, -, -⟩ := leaves_stand_in_text hread
  exact ⟨_, hread, rfl, rfl, hholds _ _ _ (by simp [Tree.leaves]),
    hholds _ _ _ (by simp [Tree.leaves])⟩

end Almanac.Expression

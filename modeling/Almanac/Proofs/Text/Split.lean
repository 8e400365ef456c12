import Mathlib.Data.List.Basic
import Almanac.Text.Blank
import Almanac.Text.Split

/-!
Pieces of a text: joined with the separator they are the text again, and a piece without blanks is
not shortened.
-/

namespace Almanac.Text

variable {separator c : Char} {text piece : List Char}

theorem split_eq_splitOn (separator : Char) (text : List Char) :
    split separator text = text.splitOn separator := by
  induction text with
  | nil => rfl
  | cons c rest ih =>
    rw [List.splitOn_eq_splitOnP, List.splitOnP_cons_eq_if_modifyHead,
      ← List.splitOn_eq_splitOnP, ← ih, split]
    simp only [beq_iff_eq]
    split
    · rfl
    · cases hsplit : split separator rest with
      | nil => exact absurd hsplit (split_ne_nil separator rest)
      | cons piece pieces => rfl

theorem intercalate_split (separator : Char) (text : List Char) :
    [separator].intercalate (split separator text) = text := by
  rw [split_eq_splitOn]
  exact List.intercalate_splitOn separator

theorem split_intercalate {pieces : List (List Char)} (hsome : pieces ≠ [])
    (h : ∀ piece ∈ pieces, separator ∉ piece) :
    split separator ([separator].intercalate pieces) = pieces := by
  rw [split_eq_splitOn]
  exact List.splitOn_intercalate separator h hsome

theorem eq_or_exists_mem_of_mem_intercalate {pieces : List (List Char)}
    (h : c ∈ [separator].intercalate pieces) : c = separator ∨ ∃ piece ∈ pieces, c ∈ piece := by
  induction pieces with
  | nil => cases h
  | cons piece rest ih =>
    cases rest with
    | nil => exact Or.inr ⟨piece, List.mem_cons_self .., by simpa using h⟩
    | cons next others =>
      rw [List.intercalate_cons_cons, List.append_assoc] at h
      rcases List.mem_append.1 h with hc | hc
      · exact Or.inr ⟨piece, List.mem_cons_self .., hc⟩
      rcases List.mem_cons.1 hc with rfl | hc
      · exact Or.inl rfl
      · refine (ih hc).imp_right fun ⟨other, hother, hc⟩ => ?_
        exact ⟨other, List.mem_cons_of_mem piece hother, hc⟩

theorem mem_of_mem_split (hpiece : piece ∈ split separator text) (hc : c ∈ piece) : c ∈ text := by
  induction text generalizing piece with
  | nil =>
    rw [List.mem_singleton.1 hpiece] at hc
    cases hc
  | cons d rest ih =>
    unfold split at hpiece
    split at hpiece
    · rcases List.mem_cons.1 hpiece with rfl | hpiece
      · cases hc
      · exact List.mem_cons_of_mem d (ih hpiece hc)
    · cases hsplit : split separator rest with
      | nil => exact absurd hsplit (split_ne_nil separator rest)
      | cons first pieces =>
        rw [hsplit] at hpiece ih
        rcases List.mem_cons.1 hpiece with rfl | hpiece
        · rcases List.mem_cons.1 hc with rfl | hc
          · exact List.mem_cons_self ..
          · exact List.mem_cons_of_mem d (ih (List.mem_cons_self ..) hc)
        · exact List.mem_cons_of_mem d (ih (List.mem_cons_of_mem first hpiece) hc)

theorem dropBlanks_eq_self (h : ∀ c ∈ text, isBlank c = false) : dropBlanks text = text := by
  cases text with
  | nil => rfl
  | cons c rest =>
    unfold dropBlanks
    rw [List.dropWhile_cons_of_neg]
    simp [h c (List.mem_cons_self ..)]

theorem trim_eq_self (h : ∀ c ∈ text, isBlank c = false) : trim text = text := by
  unfold trim
  rw [dropBlanks_eq_self h, dropBlanks_eq_self fun c hc => h c (List.mem_reverse.1 hc),
    List.reverse_reverse]

end Almanac.Text

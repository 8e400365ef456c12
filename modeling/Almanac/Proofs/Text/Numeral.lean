import Mathlib.Data.List.Induction
import Mathlib.Data.String.Basic
import Almanac.Text.Blank
import Almanac.Text.Numeral

/-!
Numbers that are written in decimal read back as themselves, and digits that do not begin with a
zero are those of their number.
-/

namespace Almanac.Text

variable {c : Char} {text : List Char} {n d : Nat}

theorem toNat_digitChar (h : d < 10) : (digitChar d).toNat = '0'.toNat + d := by
  have hall : ∀ d < 10, (digitChar d).toNat = '0'.toNat + d := by decide
  exact hall d h

theorem isDigit_digitChar (h : d < 10) : (digitChar d).isDigit = true := by
  have hall : ∀ d < 10, (digitChar d).isDigit = true := by decide
  exact hall d h

theorem digits_ne_nil (n : Nat) : digits n ≠ [] := by
  unfold digits
  split
  · exact List.cons_ne_nil _ _
  · simp

theorem isDigit_of_mem_digits (h : c ∈ digits n) : c.isDigit = true := by
  fun_induction digits n with
  | case1 n hn =>
    rw [List.mem_singleton.1 h]
    exact isDigit_digitChar hn
  | case2 n _ ih =>
    rcases List.mem_append.1 h with h | h
    · exact ih h
    · rw [List.mem_singleton.1 h]
      exact isDigit_digitChar (Nat.mod_lt n (by decide))

theorem valueOfDigits_concat (text : List Char) (c : Char) :
    valueOfDigits (text ++ [c]) = 10 * valueOfDigits text + (c.toNat - '0'.toNat) := by
  unfold valueOfDigits
  rw [List.foldl_append]
  rfl

theorem valueOfDigits_digits (n : Nat) : valueOfDigits (digits n) = n := by
  fun_induction digits n with
  | case1 n hn =>
    have hvalue := valueOfDigits_concat [] (digitChar n)
    rw [List.nil_append, toNat_digitChar hn] at hvalue
    rw [hvalue]
    simp [valueOfDigits]
  | case2 n _ ih =>
    have hlast : n % 10 < 10 := Nat.mod_lt n (by decide)
    rw [valueOfDigits_concat, ih, toNat_digitChar hlast]
    omega

theorem digitValue_lt (h : c.isDigit = true) : c.toNat - '0'.toNat < 10 := by
  have hbounds := Char.isDigit_iff_toNat.1 h
  have hzero : '0'.toNat = 48 := rfl
  have hnine : '9'.toNat = 57 := rfl
  omega

theorem digitChar_digitValue (h : c.isDigit = true) : digitChar (c.toNat - '0'.toNat) = c := by
  have hbounds := Char.isDigit_iff_toNat.1 h
  have hvalue : '0'.toNat + (c.toNat - '0'.toNat) = c.toNat := by omega
  unfold digitChar
  rw [hvalue, Char.ofNat_toNat]

theorem digits_concat (hpos : 0 < n) (h : d < 10) :
    digits (10 * n + d) = digits n ++ [digitChar d] := by
  have hdiv : (10 * n + d) / 10 = n := by omega
  have hmod : (10 * n + d) % 10 = d := by omega
  rw [digits, if_neg (by omega), hdiv, hmod]

theorem head?_digits_ne (hpos : 0 < n) : (digits n).head? ≠ some '0' := by
  fun_induction digits n with
  | case1 n hn =>
    have hall : ∀ d < 10, 0 < d → [digitChar d].head? ≠ some '0' := by decide
    exact hall n hn hpos
  | case2 n _ ih =>
    rw [List.head?_append_of_ne_nil _ (digits_ne_nil _)]
    exact ih (by omega)

theorem valueOfDigits_singleton (c : Char) : valueOfDigits [c] = c.toNat - '0'.toNat := by
  unfold valueOfDigits
  simp

theorem valueOfDigits_lt (hdigits : ∀ c ∈ text, c.isDigit = true) :
    valueOfDigits text < 10 ^ text.length := by
  induction text using List.reverseRecOn with
  | nil => decide
  | append_singleton rest last ih =>
    obtain ⟨hrest, hlast⟩ := List.forall_mem_append.1 hdigits
    have hlast := digitValue_lt (hlast last (List.mem_singleton_self last))
    have hlt := ih hrest
    rw [valueOfDigits_concat, List.length_append, List.length_singleton, Nat.pow_succ]
    omega

theorem valueOfDigits_lt_of_head?_eq_zero (hdigits : ∀ c ∈ text, c.isDigit = true)
    (hlead : text.head? = some '0') : valueOfDigits text < 10 ^ (text.length - 1) := by
  cases text with
  | nil => cases hlead
  | cons first rest =>
    cases hlead
    exact valueOfDigits_lt (List.forall_mem_cons.1 hdigits).2

theorem digitValue_pos (h : c.isDigit = true) (hzero : c ≠ '0') : 0 < c.toNat - '0'.toNat := by
  refine Nat.pos_of_ne_zero fun hvalue => hzero ?_
  rw [← digitChar_digitValue h, hvalue]
  rfl

/-- Digits that do not begin with a zero are worth at least the place of the first. -/
theorem le_valueOfDigits (hdigits : ∀ c ∈ text, c.isDigit = true) (hsome : text ≠ [])
    (hlead : text.head? ≠ some '0') : 10 ^ (text.length - 1) ≤ valueOfDigits text := by
  induction text using List.reverseRecOn with
  | nil => exact absurd rfl hsome
  | append_singleton rest last ih =>
    obtain ⟨hrest, hlast⟩ := List.forall_mem_append.1 hdigits
    by_cases hnil : rest = []
    · subst hnil
      rw [List.nil_append, valueOfDigits_singleton]
      refine digitValue_pos (hlast last (List.mem_singleton_self last)) fun hzero => hlead ?_
      rw [hzero]
      rfl
    · rw [List.head?_append_of_ne_nil _ hnil] at hlead
      have hle := ih hrest hnil hlead
      have hlength : (rest ++ [last]).length - 1 = rest.length - 1 + 1 := by
        have := List.length_pos_iff.2 hnil
        simp only [List.length_append, List.length_singleton]
        omega
      rw [valueOfDigits_concat, hlength, Nat.pow_succ]
      omega

/-- Induction on the digits from the last one on, as a number is written from the last one on. -/
theorem digits_valueOfDigits (hdigits : ∀ c ∈ text, c.isDigit = true) (hsome : text ≠ [])
    (hlead : text.head? ≠ some '0') : digits (valueOfDigits text) = text := by
  induction text using List.reverseRecOn with
  | nil => exact absurd rfl hsome
  | append_singleton rest last ih =>
    obtain ⟨hrest, hlast⟩ := List.forall_mem_append.1 hdigits
    have hlast := hlast last (List.mem_singleton_self last)
    by_cases hnil : rest = []
    · subst hnil
      rw [List.nil_append, valueOfDigits_singleton, digits, if_pos (digitValue_lt hlast),
        digitChar_digitValue hlast]
    · rw [List.head?_append_of_ne_nil _ hnil] at hlead
      have hpos : 0 < valueOfDigits rest :=
        Nat.lt_of_lt_of_le (Nat.pow_pos (by decide)) (le_valueOfDigits hrest hnil hlead)
      rw [valueOfDigits_concat, digits_concat hpos (digitValue_lt hlast), ih hrest hnil hlead,
        digitChar_digitValue hlast]

theorem readNatural?_digits (n : Nat) : readNatural? (digits n) = some n := by
  have hdigits : (digits n).all Char.isDigit = true :=
    List.all_eq_true.2 fun c hc => isDigit_of_mem_digits hc
  unfold readNatural?
  rw [if_pos ⟨digits_ne_nil n, hdigits⟩, valueOfDigits_digits]

theorem isDigit_of_readNatural?_eq_some (h : readNatural? text = some n) :
    ∀ c ∈ text, c.isDigit = true := by
  unfold readNatural? at h
  split at h
  case isTrue hdigits => exact List.all_eq_true.1 hdigits.2
  case isFalse => cases h

/-- What is read as a number is digits, but for a sign in front. -/
theorem isDigit_of_readInteger?_eq_some {value : Int} (h : readInteger? text = some value) :
    (∀ c ∈ text, c.isDigit = true) ∨
      ∃ sign rest, (sign = '+' ∨ sign = '-') ∧ text = sign :: rest ∧
        ∀ c ∈ rest, c.isDigit = true := by
  unfold readInteger? at h
  split at h
  case h_1 rest =>
    obtain ⟨_, hnegated, -⟩ := Option.map_eq_some_iff.1 h
    obtain ⟨_, hrest, -⟩ := Option.bind_eq_some_iff.1 hnegated
    exact Or.inr ⟨'-', rest, Or.inr rfl, rfl, isDigit_of_readNatural?_eq_some hrest⟩
  case h_2 rest =>
    obtain ⟨_, hrest, -⟩ := Option.map_eq_some_iff.1 h
    exact Or.inr ⟨'+', rest, Or.inl rfl, rfl, isDigit_of_readNatural?_eq_some hrest⟩
  case h_3 =>
    obtain ⟨_, htext, -⟩ := Option.map_eq_some_iff.1 h
    exact Or.inl (isDigit_of_readNatural?_eq_some htext)

theorem readInteger?_of_isDigit (h : ∀ c ∈ text, c.isDigit = true) :
    readInteger? text = (readNatural? text).map Int.ofNat := by
  unfold readInteger?
  split
  · have hminus := h '-' (List.mem_cons_self ..)
    cases hminus
  · have hplus := h '+' (List.mem_cons_self ..)
    cases hplus
  · rfl

theorem integer_toList (n : Int) :
    (integer n).toList = if n < 0 then '-' :: digits n.natAbs else digits n.natAbs := by
  unfold integer natural
  split
  · simp
  · simp

theorem integer_natCast (n : Nat) : integer n = natural n := by
  rw [integer, if_neg (by omega), Int.natAbs_natCast]

theorem natCast_integer_toList (n : Nat) : (integer n).toList = digits n := by
  rw [integer_natCast, natural, String.toList_ofList]

theorem readInteger?_eq_valueOfDigits (hsome : text ≠ []) (h : ∀ c ∈ text, c.isDigit = true) :
    readInteger? text = some (valueOfDigits text : Int) := by
  rw [readInteger?_of_isDigit h, readNatural?, if_pos ⟨hsome, List.all_eq_true.2 h⟩]
  rfl

theorem integer_toList_ne_nil (n : Int) : (integer n).toList ≠ [] := by
  rw [integer_toList]
  split
  · exact List.cons_ne_nil _ _
  · exact digits_ne_nil n.natAbs

theorem eq_minus_or_isDigit_of_mem_integer {n : Int} (h : c ∈ (integer n).toList) :
    c = '-' ∨ c.isDigit = true := by
  rw [integer_toList] at h
  split at h
  · rcases List.mem_cons.1 h with h | h
    · exact Or.inl h
    · exact Or.inr (isDigit_of_mem_digits h)
  · exact Or.inr (isDigit_of_mem_digits h)

theorem readInteger?_integer (n : Int) : readInteger? (integer n).toList = some n := by
  rw [integer_toList]
  split
  · rename_i hn
    have hvalue : -(n.natAbs : Int) = n := by omega
    change (readNatural? (digits n.natAbs)).map (fun m => -(m : Int)) = some n
    rw [readNatural?_digits]
    exact congrArg some hvalue
  · rename_i hn
    have hvalue : (n.natAbs : Int) = n := by omega
    rw [readInteger?_of_isDigit fun c hc => isDigit_of_mem_digits hc, readNatural?_digits,
      Option.map_some, Int.ofNat_eq_natCast, hvalue]

theorem readWord64?_integer {n : Int} (h : IsWord64 n) :
    readWord64? (integer n).toList = some n := by
  unfold readWord64?
  rw [readInteger?_integer]
  simp [h]

theorem readInteger?_of_readWord64?_eq_some {n : Int} (h : readWord64? text = some n) :
    readInteger? text = some n :=
  (Option.filter_eq_some_iff.1 h).1

theorem isWord64_of_readWord64?_eq_some {n : Int} (h : readWord64? text = some n) :
    IsWord64 n := by
  unfold readWord64? at h
  simpa using (Option.filter_eq_some_iff.1 h).2

theorem isBlank_eq_false_of_isDigit (h : c.isDigit = true) : isBlank c = false := by
  simp only [Char.isDigit, Bool.and_eq_true, decide_eq_true_eq, ge_iff_le,
    UInt32.le_iff_toNat_le] at h
  obtain ⟨hlow, hhigh⟩ := h
  have hlow' : 48 ≤ c.toNat := hlow
  have hhigh' : c.toNat ≤ 57 := hhigh
  simp only [isBlank, Bool.or_eq_false_iff, Bool.and_eq_false_iff, decide_eq_false_iff_not]
  omega

variable {width : Nat}

theorem isDigit_of_mem_paddedDigits (h : c ∈ paddedDigits width n) : c.isDigit = true := by
  rcases List.mem_append.1 h with h | h
  · rw [List.eq_of_mem_replicate h]
    rfl
  · exact isDigit_of_mem_digits h

theorem length_digits_le (hwidth : 0 < width) (h : n < 10 ^ width) : (digits n).length ≤ width := by
  rcases Nat.eq_zero_or_pos n with rfl | hpos
  · rw [digits, if_pos (by decide)]
    exact hwidth
  · have hle := le_valueOfDigits (fun c hc => isDigit_of_mem_digits hc) (digits_ne_nil n)
      (head?_digits_ne hpos)
    rw [valueOfDigits_digits] at hle
    have hlt := (Nat.pow_lt_pow_iff_right (by decide)).1 (Nat.lt_of_le_of_lt hle h)
    omega

theorem length_paddedDigits (hwidth : 0 < width) (h : n < 10 ^ width) :
    (paddedDigits width n).length = width := by
  have hle := length_digits_le hwidth h
  rw [paddedDigits, List.length_append, List.length_replicate]
  omega

theorem paddedDigits_ne_nil (width n : Nat) : paddedDigits width n ≠ [] :=
  List.append_ne_nil_of_right_ne_nil _ (digits_ne_nil n)

theorem valueOfDigits_paddedDigits (width n : Nat) : valueOfDigits (paddedDigits width n) = n := by
  have hzeros (count : Nat) (text : List Char) :
      valueOfDigits (List.replicate count '0' ++ text) = valueOfDigits text := by
    induction count with
    | zero => rfl
    | succ count ih => exact ih
  rw [paddedDigits, hzeros, valueOfDigits_digits]

end Almanac.Text

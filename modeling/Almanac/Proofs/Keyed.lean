import Mathlib.Data.List.Induction
import Mathlib.Data.List.Nodup
import Mathlib.Data.String.Basic
import Almanac.Keyed

/-!
Filing entries one after the other: which keys there are, that they end up in ascending order, and
that filing what is in order already changes nothing.
-/

namespace Almanac.Keyed

variable {α : Type}

theorem ofList_concat (entries : List (String × α)) (key : String) (value : α) :
    ofList (entries ++ [(key, value)]) = insert key value (ofList entries) := by
  unfold ofList
  rw [List.foldl_append]
  rfl

theorem contains_insert (entries : List (String × α)) (key query : String) (value : α) :
    contains (insert key value entries) query = (query = key || contains entries query) := by
  unfold contains
  rw [get?_insert]
  by_cases h : query = key <;> simp [h]

/-- Filed are the keys of the entries that have been filed. -/
theorem contains_ofList_iff (entries : List (String × α)) (query : String) :
    contains (ofList entries) query = true ↔ query ∈ entries.map Prod.fst := by
  induction entries using List.reverseRecOn with
  | nil => simp [ofList, contains, get?]
  | append_singleton rest entry ih =>
    obtain ⟨key, value⟩ := entry
    rw [ofList_concat, contains_insert, Bool.or_eq_true, ih]
    simp [or_comm]

theorem contains_ofList_eq_false {entries : List (String × α)} {key : String}
    (h : key ∉ entries.map Prod.fst) : contains (ofList entries) key = false := by
  rw [Bool.eq_false_iff, ne_eq, contains_ofList_iff]
  exact h

theorem mem_of_get?_eq_some {entries : List (String × α)} {key : String} {value : α}
    (h : get? entries key = some value) : (key, value) ∈ entries := by
  induction entries with
  | nil => cases h
  | cons first rest ih =>
    obtain ⟨k, v⟩ := first
    unfold get? at h
    split at h
    case isTrue hkey =>
      cases h
      exact hkey ▸ List.mem_cons_self ..
    case isFalse => exact List.mem_cons_of_mem _ (ih h)

theorem mem_of_mem_insert {entries : List (String × α)} {key : String} {value : α}
    {entry : String × α} (h : entry ∈ insert key value entries) :
    entry = (key, value) ∨ entry ∈ entries := by
  induction entries with
  | nil => exact Or.inl (List.mem_singleton.1 h)
  | cons first rest ih =>
    unfold insert at h
    split at h
    · exact List.mem_cons.1 h
    · split at h
      · rcases List.mem_cons.1 h with h | h
        · exact Or.inl h
        · exact Or.inr (List.mem_cons_of_mem first h)
      · rcases List.mem_cons.1 h with h | h
        · exact Or.inr (h ▸ List.mem_cons_self ..)
        · exact Or.imp_right (List.mem_cons_of_mem first) (ih h)

/-- Nothing is filed that has not been there. -/
theorem mem_of_mem_ofList {entries : List (String × α)} {entry : String × α}
    (h : entry ∈ ofList entries) : entry ∈ entries := by
  induction entries using List.reverseRecOn with
  | nil => cases h
  | append_singleton rest last ih =>
    rw [ofList_concat] at h
    rcases mem_of_mem_insert h with rfl | h
    · simp
    · exact List.mem_append_left [last] (ih h)

theorem nodup_keys_concat {entries : List (String × α)} {entry : String × α} :
    ((entries ++ [entry]).map Prod.fst).Nodup ↔
      (entries.map Prod.fst).Nodup ∧ entry.1 ∉ entries.map Prod.fst := by
  rw [List.map_append, List.nodup_append_comm]
  exact List.nodup_cons.trans and_comm

theorem get?_append (entries more : List (String × α)) (key : String) :
    get? (entries ++ more) key = (get? entries key).or (get? more key) := by
  induction entries with
  | nil => rfl
  | cons entry rest ih =>
    obtain ⟨k, v⟩ := entry
    by_cases hk : key = k
    · simp [get?, hk]
    · simp [get?, hk, ih]

theorem get?_eq_none_iff {entries : List (String × α)} {key : String} :
    get? entries key = none ↔ key ∉ entries.map Prod.fst := by
  induction entries with
  | nil => simp [get?]
  | cons entry rest ih =>
    obtain ⟨k, v⟩ := entry
    by_cases hk : key = k
    · simp [get?, hk]
    · simp [get?, hk, ih]

/-- Where no key stands twice, an entry is found as it stands. -/
theorem get?_eq_some_iff {entries : List (String × α)} (h : (entries.map Prod.fst).Nodup)
    {key : String} {value : α} : get? entries key = some value ↔ (key, value) ∈ entries := by
  refine ⟨mem_of_get?_eq_some, fun hmem => ?_⟩
  induction entries with
  | nil => cases hmem
  | cons entry rest ih =>
    obtain ⟨k, v⟩ := entry
    obtain ⟨hk, hrest⟩ := List.nodup_cons.1 h
    unfold get?
    rcases List.mem_cons.1 hmem with heq | hmem
    · cases heq
      exact if_pos rfl
    · have hkey : key ∈ rest.map Prod.fst := List.mem_map.2 ⟨_, hmem, rfl⟩
      have hne : key ≠ k := fun heq => hk (heq ▸ hkey)
      rw [if_neg hne, ih hrest hmem]

/-- Where no key stands twice, it makes no difference in which order entries are filed. -/
theorem get?_ofList {entries : List (String × α)} (h : (entries.map Prod.fst).Nodup)
    (key : String) : get? (ofList entries) key = get? entries key := by
  induction entries using List.reverseRecOn with
  | nil => rfl
  | append_singleton rest last ih =>
    obtain ⟨hrest, hlast⟩ := nodup_keys_concat.1 h
    rw [ofList_concat, get?_insert, ih hrest, get?_append]
    by_cases hkey : key = last.1
    · rw [if_pos hkey, hkey, get?_eq_none_iff.2 hlast]
      simp [get?]
    · rw [if_neg hkey]
      simp [get?, hkey]

/-- The keys stand in ascending order, each once. -/
def IsSorted (entries : List (String × α)) : Prop :=
  entries.Pairwise fun earlier later => earlier.1 < later.1

theorem IsSorted.insert {entries : List (String × α)} (h : IsSorted entries) (key : String)
    (value : α) : IsSorted (insert key value entries) := by
  induction entries with
  | nil => exact List.pairwise_singleton _ _
  | cons first rest ih =>
    obtain ⟨hfirst, hrest⟩ := List.pairwise_cons.1 h
    unfold Keyed.insert
    split
    · rename_i hkey
      refine List.pairwise_cons.2 ⟨fun entry hentry => ?_, h⟩
      rcases List.mem_cons.1 hentry with rfl | hentry
      · exact hkey
      · exact String.lt_trans hkey (hfirst entry hentry)
    · split
      · rename_i hkey
        refine List.pairwise_cons.2 ⟨fun entry hentry => ?_, hrest⟩
        rw [hkey]
        exact hfirst entry hentry
      · rename_i hnot hne
        refine List.pairwise_cons.2 ⟨fun entry hentry => ?_, ih hrest⟩
        rcases mem_of_mem_insert hentry with rfl | hentry
        · exact lt_of_le_of_ne (not_lt.1 hnot) (Ne.symm hne)
        · exact hfirst entry hentry

theorem isSorted_ofList (entries : List (String × α)) : IsSorted (ofList entries) := by
  induction entries using List.reverseRecOn with
  | nil => exact List.Pairwise.nil
  | append_singleton rest last ih =>
    rw [ofList_concat]
    exact ih.insert last.1 last.2

theorem insert_eq_concat {entries : List (String × α)} {key : String} (value : α)
    (h : ∀ entry ∈ entries, entry.1 < key) :
    insert key value entries = entries ++ [(key, value)] := by
  induction entries with
  | nil => rfl
  | cons first rest ih =>
    obtain ⟨hfirst, hrest⟩ := List.forall_mem_cons.1 h
    unfold insert
    rw [if_neg (lt_asymm hfirst), if_neg (ne_of_gt hfirst), ih hrest]
    rfl

theorem IsSorted.ofList_eq_self {entries : List (String × α)} (h : IsSorted entries) :
    ofList entries = entries := by
  induction entries using List.reverseRecOn with
  | nil => rfl
  | append_singleton rest last ih =>
    obtain ⟨hrest, _, hlast⟩ := List.pairwise_append.1 h
    rw [ofList_concat, ih hrest]
    exact insert_eq_concat last.2 fun entry hentry =>
      hlast entry hentry last (List.mem_singleton_self last)

theorem IsSorted.nodup_keys {entries : List (String × α)} (h : IsSorted entries) :
    (entries.map Prod.fst).Nodup := by
  refine (List.pairwise_map.2 ?_ : (entries.map Prod.fst).Pairwise (· ≠ ·))
  exact h.imp fun hlt => ne_of_lt hlt

/-- Where no key stands twice, everything is filed. -/
theorem mem_ofList_iff {entries : List (String × α)} (h : (entries.map Prod.fst).Nodup)
    {entry : String × α} : entry ∈ ofList entries ↔ entry ∈ entries := by
  obtain ⟨key, value⟩ := entry
  rw [← get?_eq_some_iff (isSorted_ofList entries).nodup_keys, get?_ofList h, get?_eq_some_iff h]

end Almanac.Keyed

/-!
Entries filed under text keys. The entries are a plain list in strictly ascending key order, so
that such a list may also stand inside an inductive type; `Keyed.insert` keeps the order.
-/

namespace Almanac

/-- Entries under text keys, in ascending order of the keys (by code point). -/
abbrev Keyed (α : Type) := List (String × α)

namespace Keyed

variable {α : Type}

/-- Files `value` under `key`, in place of an earlier entry of that key. -/
def insert (key : String) (value : α) : List (String × α) → List (String × α)
  | [] => [(key, value)]
  | (k, v) :: rest =>
    if key < k then (key, value) :: (k, v) :: rest
    else if key = k then (key, value) :: rest
    else (k, v) :: insert key value rest

def get? : List (String × α) → String → Option α
  | [], _ => none
  | (k, v) :: rest, key => if key = k then some v else get? rest key

def contains (entries : List (String × α)) (key : String) : Bool :=
  (get? entries key).isSome

def keys (entries : List (String × α)) : List String :=
  entries.map (·.1)

/-- Files pairs one after the other; of two pairs with one key the later stays. -/
def ofList (pairs : List (String × α)) : List (String × α) :=
  pairs.foldl (fun entries pair => insert pair.1 pair.2 entries) []

theorem get?_insert (key query : String) (value : α) (entries : List (String × α)) :
    get? (insert key value entries) query =
      if query = key then some value else get? entries query := by
  induction entries with
  | nil => simp [insert, get?]
  | cons entry rest ih =>
    obtain ⟨k, v⟩ := entry
    rw [insert]
    split
    · simp [get?]
    · split
      · rename_i h
        subst h
        by_cases hq : query = key <;> simp [get?, hq]
      · rename_i hne
        by_cases hq : query = k
        · subst hq
          have : query ≠ key := fun h => hne h.symm
          simp [get?, this]
        · simp [get?, hq, ih]

end Keyed

end Almanac

import Almanac.Keyed
import Almanac.Section.Basic

/-!
The checked arguments of a call, by the names of their fields.
-/

namespace Almanac

open Occurrence

/-- The value of a field after its kind has been checked. -/
inductive FieldValue where
  | integer (n : Int)
  | number (x : Binary64)
  | text (s : String)
  | integers (items : List Int)
  | texts (items : List String)
  | subsection (s : Section)
  | bound (b : Bound)

namespace FieldValue

def integer? : FieldValue → Option Int
  | integer n => some n
  | _ => none

/-- A whole number that counts something: from zero up and of at most 32 bits. -/
def countOf? (n : Int) : Option Nat :=
  if 0 ≤ n ∧ n < Text.word32 then some n.toNat else none

def count? (v : FieldValue) : Option Nat :=
  v.integer?.bind countOf?

def number? : FieldValue → Option Binary64
  | number x => some x
  | _ => none

def text? : FieldValue → Option String
  | text s => some s
  | _ => none

def integers? : FieldValue → Option (List Int)
  | integers items => some items
  | _ => none

/-- The numbers of a list that count something; none of any other value. -/
def counts (v : FieldValue) : List Nat :=
  (v.integers?.getD []).filterMap countOf?

def texts? : FieldValue → Option (List String)
  | texts items => some items
  | _ => none

def section? : FieldValue → Option Section
  | subsection s => some s
  | _ => none

/-- A moment, or the end that never comes. -/
def bound? : FieldValue → Option Bound
  | bound b => some b
  | _ => none

end FieldValue

/-- Field values under the names of the fields. -/
structure Fields where
  values : List (String × FieldValue) := []

namespace Fields

def insert (f : Fields) (name : String) (value : FieldValue) : Fields :=
  ⟨Keyed.insert name value f.values⟩

def get? (f : Fields) (name : String) : Option FieldValue :=
  Keyed.get? f.values name

/-- The value of a field as what `view` sees in it. -/
def view? {α : Type} (f : Fields) (view : FieldValue → Option α) (name : String) : Option α :=
  (f.get? name).bind view

def counts (f : Fields) (name : String) : List Nat :=
  ((f.get? name).map FieldValue.counts).getD []

end Fields

end Almanac

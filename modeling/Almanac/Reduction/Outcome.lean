import Almanac.Calendar.Instant
import Almanac.Random.Generator

/-!
Computations that may draw numbers. The state of the generator goes through a computation from step
to step. Where a step fails with an error the numbers drawn before stay drawn, and whoever handles
the error goes on from there; where a step breaks off, nothing is left of the whole computation.
-/

namespace Almanac

open Calendar

/-- A computation of an `α` that may draw numbers, fail with an `ε` or break off: what it comes to
from each state of the generator on, and the state that it leaves. -/
@[ext]
structure Reduction (ε α : Type) where
  run : Generator → Except Interruption (Except ε α × Generator)

namespace Reduction

variable {ε δ α β : Type}

/-- The computation that is over already. -/
def ofExcept (outcome : Except ε α) : Reduction ε α :=
  ⟨fun g => .ok (outcome, g)⟩

def fail (e : ε) : Reduction ε α :=
  ofExcept (.error e)

def breakOff (reason : Interruption) : Reduction ε α :=
  ⟨fun _ => .error reason⟩

/-- Draws a number from `low` up to and without `high`. -/
def draw (low high : Nat) : Reduction ε Nat :=
  ⟨fun g => .ok (.ok (g.next.pick low high), g.advance low high)⟩

/-- Goes on with what `next` makes of the outcome, unless the computation breaks off. -/
def continueWith (x : Reduction ε α) (next : Except ε α → Reduction δ β) : Reduction δ β :=
  ⟨fun g =>
    match x.run g with
    | .ok (outcome, g') => (next outcome).run g'
    | .error reason => .error reason⟩

instance : Monad (Reduction ε) where
  pure a := ofExcept (.ok a)
  bind x next := x.continueWith fun
    | .ok a => next a
    | .error e => fail e

def mapError (f : ε → δ) (x : Reduction ε α) : Reduction δ α :=
  x.continueWith fun outcome => ofExcept (outcome.mapError f)

/-- The computation that does not fail where `x` does, and gives the error instead. -/
def attempt (x : Reduction ε α) : Reduction δ (Except ε α) :=
  x.continueWith fun outcome => ofExcept (.ok outcome)

@[simp]
theorem run_pure (a : α) (g : Generator) : (pure a : Reduction ε α).run g = .ok (.ok a, g) := rfl

@[simp]
theorem run_ofExcept (outcome : Except ε α) (g : Generator) :
    (ofExcept outcome).run g = .ok (outcome, g) := rfl

@[simp]
theorem run_fail (e : ε) (g : Generator) : (fail e : Reduction ε α).run g = .ok (.error e, g) := rfl

@[simp]
theorem run_draw (low high : Nat) (g : Generator) :
    (draw low high : Reduction ε Nat).run g =
      .ok (.ok (g.next.pick low high), g.advance low high) := rfl

@[simp]
theorem ofExcept_ok (a : α) : (ofExcept (.ok a) : Reduction ε α) = pure a := rfl

@[simp]
theorem ofExcept_error (e : ε) : (ofExcept (.error e) : Reduction ε α) = fail e := rfl

theorem run_bind (x : Reduction ε α) (next : α → Reduction ε β) (g : Generator) :
    (x >>= next).run g =
      match x.run g with
      | .ok (.ok a, g') => (next a).run g'
      | .ok (.error e, g') => .ok (.error e, g')
      | .error reason => .error reason := by
  simp only [bind, continueWith]
  rcases x.run g with reason | ⟨e | a, g'⟩ <;> rfl

instance : LawfulMonad (Reduction ε) :=
  LawfulMonad.mk' _
    (fun x => by
      ext g
      simp only [Functor.map, continueWith]
      rcases x.run g with reason | ⟨e | a, g'⟩ <;> rfl)
    (fun _ _ => rfl)
    (fun x f next => by
      ext g
      simp only [run_bind]
      rcases x.run g with reason | ⟨e | a, g'⟩ <;> rfl)

@[simp]
theorem mapError_pure (f : ε → δ) (a : α) : (pure a : Reduction ε α).mapError f = pure a := rfl

@[simp]
theorem mapError_fail (f : ε → δ) (e : ε) :
    (fail e : Reduction ε α).mapError f = fail (f e) := rfl

@[simp]
theorem mapError_ofExcept (f : ε → δ) (outcome : Except ε α) :
    (ofExcept outcome).mapError f = ofExcept (outcome.mapError f) := rfl

end Reduction

end Almanac

/-!
Loops that look for a number by counting: they go on for as long as a condition holds. Where such a
loop ends, and after how many turns, depends on nothing but the condition and the number that it
begins with.
-/

namespace Almanac

/-- The loop that goes on with `body` as long as `guard` holds ends after that many turns. -/
inductive LoopEnds {σ : Type} (guard : σ → Prop) (body : σ → σ) : Nat → σ → σ → Prop where
  | done {state : σ} (hguard : ¬ guard state) : LoopEnds guard body 0 state state
  | turn {turns : Nat} {state final : σ} (hguard : guard state)
      (hrest : LoopEnds guard body turns (body state) final) :
      LoopEnds guard body (turns + 1) state final

namespace LoopEnds

theorem unique {σ : Type} {guard : σ → Prop} {body : σ → σ} {turns others : Nat}
    {state final last : σ} (h : LoopEnds guard body turns state final)
    (hother : LoopEnds guard body others state last) : turns = others ∧ final = last := by
  induction h generalizing others with
  | done hguard =>
    cases hother with
    | done => exact ⟨rfl, rfl⟩
    | turn hgoesOn => exact absurd hgoesOn hguard
  | turn hguard _ ih =>
    cases hother with
    | done hends => exact absurd hguard hends
    | turn _ hrest =>
      obtain ⟨rfl, rfl⟩ := ih hrest
      exact ⟨rfl, rfl⟩

variable {guard : Nat → Prop} {first last : Nat}

/-- Counting up to the first number where the condition fails. -/
theorem countUp (hle : first ≤ last) (hbefore : ∀ k, first ≤ k → k < last → guard k)
    (hlast : ¬ guard last) : LoopEnds guard (· + 1) (last - first) first last := by
  obtain ⟨turns, rfl⟩ := Nat.exists_eq_add_of_le hle
  rw [Nat.add_sub_cancel_left]
  induction turns generalizing first with
  | zero => exact .done hlast
  | succ turns ih =>
    have hsame : first + (turns + 1) = first + 1 + turns := by omega
    rw [hsame] at hbefore hlast ⊢
    refine .turn (hbefore first (Nat.le_refl first) (by omega)) ?_
    exact ih (by omega) (fun k hk hlt => hbefore k (by omega) hlt) hlast

/-- Counting down to the next number where the condition fails. -/
theorem countDown (hle : last ≤ first) (hbefore : ∀ k, last < k → k ≤ first → guard k)
    (hlast : ¬ guard last) : LoopEnds guard (· - 1) (first - last) first last := by
  obtain ⟨turns, rfl⟩ := Nat.exists_eq_add_of_le hle
  rw [Nat.add_sub_cancel_left]
  induction turns with
  | zero => exact .done hlast
  | succ turns ih =>
    refine .turn (hbefore _ (by omega) (Nat.le_refl _)) ?_
    exact ih (by omega) fun k hk hlt => hbefore k hk (by omega)

end LoopEnds

end Almanac

import Almanac.Proofs.Outcome
import Almanac.Reduction.Outcome

/-!
What the steps of a computation come to if the whole computation comes to something. Where the state
of the generator is of no interest, a computation is told by the results that it can return.
-/

namespace Almanac.Reduction

open Calendar

variable {ε δ α β : Type} {x y : Reduction ε α} {next : α → Reduction ε β} {f : α → β}
  {outcome : Except ε α} {a : α} {b : β} {e : ε} {g g' : Generator}

theorem run_ofExcept_eq_ok_iff {result : Except ε α} :
    (ofExcept outcome).run g = .ok (result, g') ↔ outcome = result ∧ g = g' := by
  rw [run_ofExcept, Except.ok.injEq, Prod.mk.injEq]

theorem run_bind_eq_ok_iff :
    (x >>= next).run g = .ok (.ok b, g') ↔
      ∃ a h, x.run g = .ok (.ok a, h) ∧ (next a).run h = .ok (.ok b, g') := by
  rw [run_bind]
  rcases x.run g with reason | ⟨e | a, h⟩ <;> simp [and_assoc]

theorem run_bind_eq_error_iff :
    (x >>= next).run g = .ok (.error e, g') ↔
      x.run g = .ok (.error e, g') ∨
        ∃ a h, x.run g = .ok (.ok a, h) ∧ (next a).run h = .ok (.error e, g') := by
  rw [run_bind]
  rcases x.run g with reason | ⟨e | a, h⟩ <;> simp [and_assoc]

theorem run_bind_breaksOff_iff {reason : Interruption} :
    (x >>= next).run g = .error reason ↔
      x.run g = .error reason ∨
        ∃ a h, x.run g = .ok (.ok a, h) ∧ (next a).run h = .error reason := by
  rw [run_bind]
  rcases x.run g with reason | ⟨e | a, h⟩ <;> simp [and_assoc]

theorem run_map (f : α → β) (x : Reduction ε α) (g : Generator) :
    (f <$> x).run g = (x.run g).map fun (outcome, g') => (outcome.map f, g') := by
  rw [map_eq_pure_bind, run_bind]
  rcases x.run g with reason | ⟨e | a, h⟩ <;> rfl

theorem run_mapError (f : ε → δ) (x : Reduction ε α) (g : Generator) :
    (x.mapError f).run g = (x.run g).map fun (outcome, g') => (outcome.mapError f, g') := by
  simp only [mapError, continueWith]
  rcases x.run g with reason | ⟨e | a, h⟩ <;> rfl

/-- What follows an attempt goes on whether there is a result or an error. -/
theorem run_attempt_bind (x : Reduction ε α) (next : Except ε α → Reduction δ β) (g : Generator) :
    (x.attempt >>= next).run g = (x.continueWith next).run g := by
  rw [run_bind]
  simp only [attempt, continueWith]
  rcases x.run g with reason | ⟨outcome, h⟩ <;> rfl

theorem run_continueWith_eq_ok_iff {next : Except ε α → Reduction δ β} {result : Except δ β} :
    (x.continueWith next).run g = .ok (result, g') ↔
      ∃ outcome between, x.run g = .ok (outcome, between) ∧
        (next outcome).run between = .ok (result, g') := by
  simp only [continueWith]
  rcases x.run g with reason | ⟨outcome, between⟩ <;> simp [and_assoc]

theorem run_continueWith_breaksOff_iff {next : Except ε α → Reduction δ β} {reason : Interruption} :
    (x.continueWith next).run g = .error reason ↔
      x.run g = .error reason ∨ ∃ outcome between, x.run g = .ok (outcome, between) ∧
        (next outcome).run between = .error reason := by
  simp only [continueWith]
  rcases x.run g with reason | ⟨outcome, between⟩ <;> simp [and_assoc]

theorem run_map_eq_error_iff :
    (f <$> x).run g = .ok (.error e, g') ↔ x.run g = .ok (.error e, g') := by
  rw [run_map]
  rcases x.run g with reason | ⟨e | a, h⟩ <;> simp [Except.map]

theorem run_map_breaksOff_iff {reason : Interruption} :
    (f <$> x).run g = .error reason ↔ x.run g = .error reason := by
  rw [run_map]
  rcases x.run g with reason | ⟨outcome, h⟩ <;> simp [Except.map]

theorem run_mapError_breaksOff_iff {f : ε → δ} {reason : Interruption} :
    (x.mapError f).run g = .error reason ↔ x.run g = .error reason := by
  rw [run_mapError]
  rcases x.run g with reason | ⟨outcome, h⟩ <;> simp [Except.map]

/-- From some state of the generator on, the computation has that result. -/
def CanReturn (x : Reduction ε α) (a : α) : Prop :=
  ∃ g g', x.run g = .ok (.ok a, g')

theorem canReturn_of_run (h : x.run g = .ok (.ok a, g')) : x.CanReturn a :=
  ⟨g, g', h⟩

/-- The result from a state of the generator on and the state that is left, if there is a result. -/
def result? (x : Reduction ε α) (g : Generator) : Option (α × Generator) :=
  match x.run g with
  | .ok (.ok a, g') => some (a, g')
  | _ => none

theorem run_eq_ok_of_result?_eq_some (h : x.result? g = some (a, g')) :
    x.run g = .ok (.ok a, g') := by
  unfold result? at h
  split at h
  case h_1 hrun =>
    cases h
    exact hrun
  case h_2 => cases h

/-- Results can be compared by what they show where sections cannot. -/
theorem exists_of_map_result?_eq_some {f : α → β} (h : (x.result? g).map (f ·.1) = some b) :
    ∃ a g', x.run g = .ok (.ok a, g') ∧ f a = b := by
  obtain ⟨⟨a, g'⟩, hresult, hb⟩ := Option.map_eq_some_iff.1 h
  exact ⟨a, g', run_eq_ok_of_result?_eq_some hresult, hb⟩

@[simp]
theorem canReturn_ofExcept_iff : (ofExcept outcome).CanReturn a ↔ outcome = .ok a := by
  constructor
  · rintro ⟨g, g', h⟩
    cases h
    rfl
  · rintro rfl
    exact ⟨default, default, rfl⟩

@[simp]
theorem canReturn_pure_iff {c : α} : (pure c : Reduction ε α).CanReturn a ↔ c = a := by
  rw [← ofExcept_ok, canReturn_ofExcept_iff, Except.ok.injEq]

theorem canReturn_of_eq_pure (h : x = pure a) : x.CanReturn a :=
  h ▸ canReturn_pure_iff.2 rfl

theorem eq_of_pure_eq {c : α} (h : (pure a : Reduction ε α) = pure c) : a = c :=
  (canReturn_pure_iff.1 (h ▸ canReturn_pure_iff.2 rfl : (pure c : Reduction ε α).CanReturn a)).symm

@[simp]
theorem not_canReturn_fail : ¬ (fail e : Reduction ε α).CanReturn a := by
  rw [← ofExcept_error, canReturn_ofExcept_iff]
  exact nofun

theorem lt_of_canReturn_draw {low high n : Nat} (hlt : low < high)
    (h : (draw low high : Reduction ε Nat).CanReturn n) : n < high := by
  obtain ⟨g, g', h⟩ := h
  cases h
  exact g.next.pick_lt low high hlt

theorem exists_of_canReturn_bind (h : (x >>= next).CanReturn b) :
    ∃ a, x.CanReturn a ∧ (next a).CanReturn b := by
  obtain ⟨g, g', h⟩ := h
  obtain ⟨a, between, hx, hnext⟩ := run_bind_eq_ok_iff.1 h
  exact ⟨a, canReturn_of_run hx, canReturn_of_run hnext⟩

theorem bind_congr_of_canReturn {other : α → Reduction ε β}
    (h : ∀ a, x.CanReturn a → next a = other a) : x >>= next = x >>= other := by
  ext g
  rw [run_bind, run_bind]
  rcases hx : x.run g with reason | ⟨e | a, g'⟩
  · rfl
  · rfl
  · exact congrArg (run · g') (h a (canReturn_of_run hx))

theorem exists_of_canReturn_map (h : (f <$> x).CanReturn b) : ∃ a, x.CanReturn a ∧ f a = b := by
  rw [map_eq_pure_bind] at h
  obtain ⟨a, hx, hb⟩ := exists_of_canReturn_bind h
  exact ⟨a, hx, canReturn_pure_iff.1 hb⟩

theorem canReturn_of_mapError {f : ε → δ} (h : (x.mapError f).CanReturn a) : x.CanReturn a := by
  obtain ⟨g, g', h⟩ := h
  rw [run_mapError] at h
  obtain ⟨⟨outcome, after⟩, hx, hpair⟩ := exists_of_map_eq_ok h
  cases eq_ok_of_mapError_eq_ok (congrArg Prod.fst hpair)
  exact ⟨g, after, hx⟩

/-- Wherever `x` has a result, `y` has the same one and leaves the generator in the same state. -/
def Refines (x y : Reduction ε α) : Prop :=
  ∀ g a g', x.run g = .ok (.ok a, g') → y.run g = .ok (.ok a, g')

theorem Refines.refl (x : Reduction ε α) : x.Refines x := fun _ _ _ h => h

theorem Refines.bind {other : α → Reduction ε β} (h : x.Refines y)
    (hnext : ∀ a, (next a).Refines (other a)) : (x >>= next).Refines (y >>= other) := by
  intro g b g' hrun
  obtain ⟨a, between, hx, hb⟩ := run_bind_eq_ok_iff.1 hrun
  exact run_bind_eq_ok_iff.2 ⟨a, between, h _ _ _ hx, hnext a _ _ _ hb⟩

theorem Refines.map (h : x.Refines y) (f : α → β) : (f <$> x).Refines (f <$> y) := by
  rw [map_eq_pure_bind, map_eq_pure_bind]
  exact h.bind fun _ => .refl _

theorem Refines.mapError (h : x.Refines y) (f : ε → δ) :
    (x.mapError f).Refines (y.mapError f) := by
  intro g a g' hrun
  obtain ⟨outcome, between, hx, hmapped⟩ := run_continueWith_eq_ok_iff.1 hrun
  cases outcome with
  | error e => cases hmapped
  | ok a => exact run_continueWith_eq_ok_iff.2 ⟨_, between, h _ _ _ hx, hmapped⟩

/-- Both computations are over already, with one outcome: they draw nothing and break off nowhere.
-/
def Coincide (x y : Reduction ε α) : Prop :=
  ∃ outcome, x = ofExcept outcome ∧ y = ofExcept outcome

theorem Coincide.eq (h : x.Coincide y) : x = y := by
  obtain ⟨outcome, rfl, rfl⟩ := h
  rfl

theorem Coincide.self (h : x.Coincide y) : x.Coincide x := by
  obtain ⟨outcome, hx, -⟩ := h
  exact ⟨outcome, hx, hx⟩

theorem Coincide.ofExcept (outcome : Except ε α) :
    (ofExcept outcome).Coincide (.ofExcept outcome) :=
  ⟨outcome, rfl, rfl⟩

theorem Coincide.pure (a : α) : (pure a : Reduction ε α).Coincide (Pure.pure a) :=
  .ofExcept (.ok a)

theorem Coincide.bind {other : α → Reduction ε β} (h : x.Coincide y)
    (hnext : ∀ a, x.CanReturn a → (next a).Coincide (other a)) :
    (x >>= next).Coincide (y >>= other) := by
  obtain ⟨outcome, rfl, rfl⟩ := h
  cases outcome with
  | error e => exact .ofExcept (.error e)
  | ok a => exact hnext a (canReturn_pure_iff.2 rfl)

theorem Coincide.map (h : x.Coincide y) (f : α → β) : (f <$> x).Coincide (f <$> y) := by
  rw [map_eq_pure_bind, map_eq_pure_bind]
  exact h.bind fun _ _ => .pure _

theorem Coincide.mapError (h : x.Coincide y) (f : ε → δ) :
    (x.mapError f).Coincide (y.mapError f) := by
  obtain ⟨outcome, rfl, rfl⟩ := h
  exact .ofExcept _

theorem Coincide.attempt (h : x.Coincide y) :
    (x.attempt : Reduction δ _).Coincide y.attempt := by
  obtain ⟨outcome, rfl, rfl⟩ := h
  exact .pure _

end Almanac.Reduction

import Mathlib.Data.ENat.Lattice
import Mathlib.Logic.Function.Iterate
import Almanac.Proofs.Occurrence.Answer

/-!
The merge of any generators, seen without its state. A generator leads with the instants that it
shows before it ends or shows one past the limit, and a round has before it what the leading
generators show at that place, one column of all that they show. The first column whose earliest
instant is after the query decides, if none before it is empty and the rounds do not run out; and a
generator is asked in every round that is run, up to the question that drops it.
-/

namespace Almanac.Occurrence

open Calendar

variable {σ : Type} (next? : σ → Option (Instant × σ)) (stop : Option Instant)

/-- The instant at a place of a generator, counted from 0; none if the generator ends before. -/
def candidate? : Nat → σ → Option Instant
  | 0, g => (next? g).map Prod.fst
  | place + 1, g => (next? g).bind fun answer => candidate? place answer.2

/-- The generator has an instant at that place, and not one past the limit. -/
def IsShown (g : σ) (place : Nat) : Prop :=
  ∃ i, candidate? next? place g = some i ∧ ∀ e ∈ stop, i ≤ e

/-- The number of instants that a generator shows before the first place at which it has none or
one past the limit. -/
noncomputable def lead (g : σ) : ℕ∞ :=
  ⨅ (place : ℕ) (_ : ¬ IsShown next? stop g place), (place : ℕ∞)

theorem le_lead_iff {g : σ} {place : Nat} :
    (place : ℕ∞) ≤ lead next? stop g ↔ ∀ before < place, IsShown next? stop g before := by
  unfold lead
  rw [le_iInf₂_iff]
  constructor
  · intro h before hlt
    by_contra hnot
    exact Nat.not_le.2 hlt (Nat.cast_le.1 (h before hnot))
  · intro h before hnot
    by_contra hlt
    exact hnot (h before (Nat.cast_lt.1 (not_le.1 hlt)))

theorem lt_lead_iff {g : σ} {place : Nat} :
    (place : ℕ∞) < lead next? stop g ↔
      (place : ℕ∞) ≤ lead next? stop g ∧ IsShown next? stop g place := by
  rw [← ENat.add_one_le_iff (ENat.natCast_ne_top place), ← Nat.cast_one, ← Nat.cast_add,
    le_lead_iff, le_lead_iff]
  constructor
  · intro h
    exact ⟨fun before hlt => h before (by omega), h place (by omega)⟩
  · rintro ⟨hbefore, hplace⟩ before hlt
    rcases Nat.lt_succ_iff_lt_or_eq.1 hlt with hlt | rfl
    · exact hbefore before hlt
    · exact hplace

/-- What the leading generators show at a place. -/
def column (generators : List σ) (place : Nat) : Set Instant :=
  {i | ∃ g ∈ generators, (place : ℕ∞) < lead next? stop g ∧ candidate? next? place g = some i}

/-- The column has a first instant, and it is not after the query. -/
def IsPassed (generators : List σ) (time : Instant) (place : Nat) : Prop :=
  ∃ i, IsLeast (column next? stop generators place) i ∧ i ≤ time

/-- The rounds that are run: up to the first whose column decides or is empty, and no more than
the limit. -/
noncomputable def roundsRun (generators : List σ) (time : Instant) : Nat :=
  sInf {rounds | rounds = maxRounds ∨
    ∃ place, rounds = place + 1 ∧ ¬ IsPassed next? stop generators time place}

/-- What is known of the feed of a generator after a number of rounds. -/
structure Feed.IsAfter (g : σ) (rounds : Nat) (f : Feed σ) : Prop where
  live_iff : f.live = true ↔ (rounds : ℕ∞) ≤ lead next? stop g
  asked_eq : (f.asked : ℕ∞) = min (lead next? stop g + 1) rounds
  candidate?_eq : f.live = true →
    ∀ place, candidate? next? place f.state = candidate? next? (rounds + place) g

/-- The feed of a generator after a number of rounds. -/
def feedAfter (rounds : Nat) (g : σ) : Feed σ :=
  (fun f => (f.advance next? stop).1)^[rounds] { state := g }

variable {next? stop} {g : σ} {f : Feed σ} {rounds : Nat} {generators : List σ} {time i : Instant}

theorem Feed.isAfter_zero (g : σ) : Feed.IsAfter next? stop g 0 { state := g } where
  live_iff := by simp
  asked_eq := by simp
  candidate?_eq := by simp

/-- A dropped feed is left as it is, as its generator does not lead any more. -/
theorem Feed.IsAfter.advance_dropped (h : f.IsAfter next? stop g rounds)
    (hdropped : f.live = false) :
    f.advance next? stop = (f, none) ∧ f.IsAfter next? stop g (rounds + 1) ∧
      ¬ (rounds : ℕ∞) < lead next? stop g := by
  have hpast : lead next? stop g < rounds := by
    rw [← not_le, ← h.live_iff, hdropped]
    exact Bool.false_ne_true
  have hlater : (rounds : ℕ∞) ≤ (rounds + 1 : ℕ) := Nat.cast_le.2 (Nat.le_succ rounds)
  have hasked : lead next? stop g + 1 ≤ rounds := Order.add_one_le_of_lt hpast
  refine ⟨?_, ⟨?_, ?_, ?_⟩, not_lt.2 hpast.le⟩
  · unfold Feed.advance
    rw [if_neg (by rw [hdropped]; exact Bool.false_ne_true)]
  · rw [hdropped]
    exact iff_of_false Bool.false_ne_true (not_le.2 (hpast.trans_le hlater))
  · rw [h.asked_eq, min_eq_left hasked, min_eq_left (hasked.trans hlater)]
  · rw [hdropped]
    exact fun hlive => absurd hlive Bool.false_ne_true

/-- A live feed with something to show goes on behind it. -/
theorem Feed.advance_of_isShown (hlive : f.live = true) (h : IsShown next? stop f.state 0) :
    ∃ i rest, next? f.state = some (i, rest) ∧
      f.advance next? stop = ({ f with state := rest, asked := f.asked + 1 }, some i) := by
  obtain ⟨_, hi, hwithin⟩ := h
  obtain ⟨⟨i, rest⟩, hnext, rfl⟩ := Option.map_eq_some_iff.1 hi
  have hnot : ¬ stop.any (· < i) = true := by
    rw [Instant.any_lt_iff]
    rintro ⟨e, he, hlate⟩
    exact Instant.not_lt.2 (hwithin e he) hlate
  refine ⟨i, rest, hnext, ?_⟩
  unfold Feed.advance
  rw [if_pos hlive, hnext]
  exact if_neg hnot

/-- A live feed with nothing to show is dropped. -/
theorem Feed.advance_of_not_isShown (hlive : f.live = true)
    (h : ¬ IsShown next? stop f.state 0) :
    (f.advance next? stop).1.live = false ∧ (f.advance next? stop).1.asked = f.asked + 1 ∧
      (f.advance next? stop).2 = none := by
  unfold Feed.advance
  rw [if_pos hlive]
  cases hnext : next? f.state with
  | none => exact ⟨rfl, rfl, rfl⟩
  | some answer =>
    have hi : candidate? next? 0 f.state = some answer.1 := by
      rw [candidate?, hnext, Option.map_some]
    have hpast : stop.any (· < answer.1) = true := by
      by_contra hnot
      exact h ⟨answer.1, hi, fun e he => Instant.not_lt.1 fun hlate =>
        hnot (Instant.any_lt_iff.2 ⟨e, he, hlate⟩)⟩
    simp [hpast]

/-- A live feed is asked once more. It stays live exactly if its generator has something to show at
this place, and then it shows it. -/
theorem Feed.IsAfter.advance_live (h : f.IsAfter next? stop g rounds) (hlive : f.live = true) :
    (f.advance next? stop).1.IsAfter next? stop g (rounds + 1) ∧
      ∀ i, (f.advance next? stop).2 = some i ↔
        (rounds : ℕ∞) < lead next? stop g ∧ candidate? next? rounds g = some i := by
  have hlead := h.live_iff.1 hlive
  have hhere : candidate? next? 0 f.state = candidate? next? rounds g := h.candidate?_eq hlive 0
  have hasked : ((f.asked + 1 : ℕ) : ℕ∞) = min (lead next? stop g + 1) (rounds + 1 : ℕ) := by
    have hbefore := h.asked_eq
    rw [min_eq_right (hlead.trans le_self_add)] at hbefore
    rw [Nat.cast_add, Nat.cast_add, Nat.cast_one, hbefore, min_eq_right (by gcongr)]
  have hlt : (rounds : ℕ∞) < lead next? stop g ↔ IsShown next? stop f.state 0 := by
    rw [lt_lead_iff, IsShown, IsShown, hhere]
    exact and_iff_right hlead
  have hsucc : ((rounds + 1 : ℕ) : ℕ∞) ≤ lead next? stop g ↔ IsShown next? stop f.state 0 := by
    rw [← hlt, Nat.cast_add, Nat.cast_one, ENat.add_one_le_iff (ENat.natCast_ne_top rounds)]
  rw [hlt, ← hhere]
  by_cases hshown : IsShown next? stop f.state 0
  · obtain ⟨i, rest, hnext, hadvance⟩ := Feed.advance_of_isShown hlive hshown
    have hrest (place : Nat) : candidate? next? place rest =
        candidate? next? (rounds + 1 + place) g := by
      have hlater := h.candidate?_eq hlive (place + 1)
      rw [candidate?, hnext, Option.bind_some] at hlater
      rw [hlater, Nat.add_right_comm, Nat.add_assoc]
    rw [hadvance, candidate?, hnext, Option.map_some]
    exact ⟨⟨iff_of_true hlive (hsucc.2 hshown), hasked, fun _ => hrest⟩,
      fun i => (and_iff_right hshown).symm⟩
  · obtain ⟨hdropped, hcount, hnone⟩ := Feed.advance_of_not_isShown hlive hshown
    rw [hnone]
    refine ⟨⟨?_, ?_, ?_⟩, fun i => iff_of_false nofun fun hi => hshown hi.1⟩
    · rw [hdropped]
      exact iff_of_false Bool.false_ne_true (hshown ∘ hsucc.1)
    · rw [hcount, hasked]
    · rw [hdropped]
      exact nofun

/-- One round for a feed: what it knows of its generator stays true, and it shows what stands at its
place as long as the generator leads. -/
theorem Feed.IsAfter.advance (h : f.IsAfter next? stop g rounds) :
    (f.advance next? stop).1.IsAfter next? stop g (rounds + 1) ∧
      ∀ i, (f.advance next? stop).2 = some i ↔
        (rounds : ℕ∞) < lead next? stop g ∧ candidate? next? rounds g = some i := by
  cases hlive : f.live with
  | true => exact h.advance_live hlive
  | false =>
    obtain ⟨hsame, hafter, hnot⟩ := h.advance_dropped hlive
    rw [hsame]
    exact ⟨hafter, fun i => by simp [hnot]⟩

theorem feedAfter_succ (rounds : Nat) (g : σ) :
    feedAfter next? stop (rounds + 1) g = ((feedAfter next? stop rounds g).advance next? stop).1 :=
  Function.iterate_succ_apply' ..

theorem isAfter_feedAfter (rounds : Nat) (g : σ) :
    (feedAfter next? stop rounds g).IsAfter next? stop g rounds := by
  induction rounds with
  | zero => exact Feed.isAfter_zero g
  | succ rounds ih =>
    rw [feedAfter_succ]
    exact ih.advance.1

/-- The earliest instant that a round shows. -/
def earliestIn (next? : σ → Option (Instant × σ)) (stop : Option Instant) (generators : List σ)
    (place : Nat) : Option Instant :=
  earliest (generators.map fun g => ((feedAfter next? stop place g).advance next? stop).2)

theorem isFirst_earliestIn (next? : σ → Option (Instant × σ)) (stop : Option Instant)
    (generators : List σ) (place : Nat) :
    IsFirst (column next? stop generators place) (earliestIn next? stop generators place) := by
  refine (isFirst_earliest generators (fun g => {i | (place : ℕ∞) < lead next? stop g ∧
    candidate? next? place g = some i}) _ fun g _ => ?_).congr fun i => Iff.rfl
  refine (isFirst_setOf_eq_some _).congr fun i => ?_
  exact (isAfter_feedAfter place g).advance.2 i

/-- How often each generator has been asked after a number of rounds. -/
def askedAfter (next? : σ → Option (Instant × σ)) (stop : Option Instant) (generators : List σ)
    (rounds : Nat) : List Nat :=
  generators.map fun g => (feedAfter next? stop rounds g).asked

/-- One round of the merge, from the feeds after some rounds to those after one more. -/
theorem mergeRounds_feedAfter (generators : List σ) (rounds place : Nat) :
    mergeRounds next? time stop (rounds + 1) (generators.map (feedAfter next? stop place)) =
      match earliestIn next? stop generators place with
      | none => ⟨none, askedAfter next? stop generators (place + 1)⟩
      | some i =>
        if time < i then ⟨some i, askedAfter next? stop generators (place + 1)⟩
        else
          mergeRounds next? time stop rounds
            (generators.map (feedAfter next? stop (place + 1))) := by
  rw [mergeRounds]
  simp only [List.map_map, Function.comp_def, ← feedAfter_succ]
  rfl

theorem mergeRounds_of_isPassed {place : Nat} (h : IsPassed next? stop generators time place)
    (rounds : Nat) :
    mergeRounds next? time stop (rounds + 1) (generators.map (feedAfter next? stop place)) =
      mergeRounds next? time stop rounds (generators.map (feedAfter next? stop (place + 1))) := by
  obtain ⟨i, hleast, hle⟩ := h
  rw [mergeRounds_feedAfter, (isFirst_earliestIn next? stop generators place).eq_some_iff.2 hleast]
  exact if_neg (Instant.not_lt.2 hle)

theorem mergeRounds_of_not_isPassed {place : Nat}
    (h : ¬ IsPassed next? stop generators time place) (rounds : Nat) :
    mergeRounds next? time stop (rounds + 1) (generators.map (feedAfter next? stop place)) =
      ⟨earliestIn next? stop generators place, askedAfter next? stop generators (place + 1)⟩ := by
  have hfirst := isFirst_earliestIn next? stop generators place
  rw [mergeRounds_feedAfter]
  cases hearliest : earliestIn next? stop generators place with
  | none => rfl
  | some i =>
    rw [hearliest] at hfirst
    exact if_pos (Instant.not_le.1 fun hle => h ⟨i, hfirst, hle⟩)

/-- Rounds whose columns are passed lead to the feeds after them. -/
theorem mergeRounds_add (place rounds : Nat)
    (h : ∀ before < place, IsPassed next? stop generators time before) :
    mergeRounds next? time stop (place + rounds) (generators.map fun g => { state := g }) =
      mergeRounds next? time stop rounds (generators.map (feedAfter next? stop place)) := by
  induction place generalizing rounds with
  | zero => rw [Nat.zero_add]; rfl
  | succ place ih =>
    rw [Nat.add_right_comm, Nat.add_assoc, ih (rounds + 1) fun before hlt => h before (by omega),
      mergeRounds_of_isPassed (h place (Nat.lt_succ_self place))]

theorem merge_of_forall_isPassed
    (h : ∀ place < maxRounds, IsPassed next? stop generators time place) :
    merge next? generators time stop = ⟨none, askedAfter next? stop generators maxRounds⟩ := by
  unfold merge
  rw [← Nat.add_zero maxRounds, mergeRounds_add maxRounds 0 h, mergeRounds]
  simp only [List.map_map, Function.comp_def]
  rfl

theorem merge_of_not_isPassed {place : Nat} (hplace : place < maxRounds)
    (hbefore : ∀ before < place, IsPassed next? stop generators time before)
    (h : ¬ IsPassed next? stop generators time place) :
    merge next? generators time stop =
      ⟨earliestIn next? stop generators place, askedAfter next? stop generators (place + 1)⟩ := by
  have hrounds : maxRounds = place + ((maxRounds - (place + 1)) + 1) := by omega
  unfold merge
  rw [hrounds, mergeRounds_add place _ hbefore, mergeRounds_of_not_isPassed h]

theorem roundsRun_of_forall_isPassed
    (h : ∀ place < maxRounds, IsPassed next? stop generators time place) :
    roundsRun next? stop generators time = maxRounds := by
  refine IsLeast.csInf_eq ⟨Or.inl rfl, ?_⟩
  rintro rounds (rfl | ⟨place, rfl, hnot⟩)
  · exact Nat.le_refl _
  · exact Nat.le_succ_of_le (Nat.not_lt.1 fun hlt => hnot (h place hlt))

theorem roundsRun_of_not_isPassed {place : Nat} (hplace : place < maxRounds)
    (hbefore : ∀ before < place, IsPassed next? stop generators time before)
    (h : ¬ IsPassed next? stop generators time place) :
    roundsRun next? stop generators time = place + 1 := by
  refine IsLeast.csInf_eq ⟨Or.inr ⟨place, rfl, h⟩, ?_⟩
  rintro rounds (rfl | ⟨other, rfl, hnot⟩)
  · exact hplace
  · exact Nat.succ_le_succ (Nat.not_lt.1 fun hlt => hnot (hbefore other hlt))

/-- Either all rounds are passed, or there is a first that is not. -/
theorem forall_isPassed_or_exists (next? : σ → Option (Instant × σ)) (stop : Option Instant)
    (generators : List σ) (time : Instant) :
    (∀ place < maxRounds, IsPassed next? stop generators time place) ∨
      ∃ place < maxRounds, (∀ before < place, IsPassed next? stop generators time before) ∧
        ¬ IsPassed next? stop generators time place := by
  classical
  rw [or_iff_not_imp_left]
  intro hnot
  push Not at hnot
  have hfound := Nat.find_spec hnot
  refine ⟨Nat.find hnot, hfound.1, fun before hlt => ?_, hfound.2⟩
  by_contra hother
  exact Nat.find_min hnot hlt ⟨hlt.trans hfound.1, hother⟩

theorem asked_merge (generators : List σ) :
    (merge next? generators time stop).asked =
      askedAfter next? stop generators (roundsRun next? stop generators time) := by
  rcases forall_isPassed_or_exists next? stop generators time with
    hall | ⟨place, hplace, hbefore, hnot⟩
  · rw [merge_of_forall_isPassed hall, roundsRun_of_forall_isPassed hall]
  · rw [merge_of_not_isPassed hplace hbefore hnot, roundsRun_of_not_isPassed hplace hbefore hnot]

/-- What is found is the first of the first column that has its first after the query, where all
columns before it are passed. -/
theorem found_merge_eq_some_iff (generators : List σ) :
    (merge next? generators time stop).found = some i ↔
      ∃ place < maxRounds, IsLeast (column next? stop generators place) i ∧ time < i ∧
        ∀ before < place, IsPassed next? stop generators time before := by
  have not_isPassed {place : Nat} (hleast : IsLeast (column next? stop generators place) i)
      (hafter : time < i) : ¬ IsPassed next? stop generators time place := by
    rintro ⟨j, hj, hle⟩
    exact Instant.not_lt.2 (Instant.le_trans (hleast.2 hj.1) hle) hafter
  rcases forall_isPassed_or_exists next? stop generators time with
    hall | ⟨first, hfirst, hbefore, hnot⟩
  · rw [merge_of_forall_isPassed hall]
    refine iff_of_false nofun ?_
    rintro ⟨place, hplace, hleast, hafter, -⟩
    exact not_isPassed hleast hafter (hall place hplace)
  · rw [merge_of_not_isPassed hfirst hbefore hnot]
    have hfound := (isFirst_earliestIn next? stop generators first).eq_some_iff (i := i)
    constructor
    · intro h
      have hleast := hfound.1 h
      exact ⟨first, hfirst, hleast, Instant.not_le.1 fun hle => hnot ⟨i, hleast, hle⟩, hbefore⟩
    · rintro ⟨place, -, hleast, hafter, hpassed⟩
      have hle : place ≤ first := Nat.not_lt.1 fun hlt => hnot (hpassed first hlt)
      have hge : first ≤ place :=
        Nat.not_lt.1 fun hlt => not_isPassed hleast hafter (hbefore place hlt)
      rw [Nat.le_antisymm hle hge] at hleast
      exact hfound.2 hleast

theorem column_eq_of_perm {others : List σ} (h : generators.Perm others) :
    column next? stop others = column next? stop generators := by
  funext place
  ext i
  simp only [column, h.mem_iff]

theorem natCast_askedAfter (generators : List σ) (rounds : Nat) :
    (askedAfter next? stop generators rounds).map (Nat.cast : ℕ → ℕ∞) =
      generators.map fun g => min (lead next? stop g + 1) rounds := by
  unfold askedAfter
  rw [List.map_map]
  exact List.map_congr_left fun g _ => (isAfter_feedAfter rounds g).asked_eq

/-- The merge of any generators finds the earliest instant of the first column that has it after the
query, unless a column before is empty or the rounds run out. Each generator is asked once more than
it leads, or once in every round if that is less, and the order of the generators changes neither
what is found nor how many questions are put in all. -/
theorem merge_by_columns (next? : σ → Option (Instant × σ)) (generators : List σ) (time : Instant)
    (stop : Option Instant) :
    (∀ i, (merge next? generators time stop).found = some i ↔
      ∃ place < maxRounds, IsLeast (column next? stop generators place) i ∧ time < i ∧
        ∀ before < place, IsPassed next? stop generators time before) ∧
    ((merge next? generators time stop).asked.map (Nat.cast : ℕ → ℕ∞) =
      generators.map fun g =>
        min (lead next? stop g + 1) (roundsRun next? stop generators time)) ∧
    ∀ others, generators.Perm others →
      (merge next? others time stop).found = (merge next? generators time stop).found ∧
        (merge next? others time stop).pulls = (merge next? generators time stop).pulls := by
  refine ⟨fun i => found_merge_eq_some_iff generators, ?_, fun others hperm => ⟨?_, ?_⟩⟩
  · rw [asked_merge, natCast_askedAfter]
  · refine Option.ext fun i => ?_
    rw [found_merge_eq_some_iff, found_merge_eq_some_iff]
    simp only [IsPassed, column_eq_of_perm hperm]
  · have hrounds : roundsRun next? stop others time = roundsRun next? stop generators time := by
      simp only [roundsRun, IsPassed, column_eq_of_perm hperm]
    unfold Merged.pulls
    rw [asked_merge, asked_merge, hrounds]
    exact ((hperm.map _).foldl_eq 0).symm

/-- Three generators, one of them empty and one with its instants out of order: the second round
decides, and it does so in the reverse order as well. -/
theorem merge_by_columns_reversed :
    let next? := fun instants : List Instant => instants.head?.map fun i => (i, instants.tail)
    let generators := [[Instant.midnight 3 (by decide), .midnight 8 (by decide)], [],
      [Instant.midnight 9 (by decide), .midnight 7 (by decide)]]
    let time := Instant.midnight 5 (by decide)
    generators.Perm generators.reverse ∧
      (merge next? generators.reverse time none).found = some (.midnight 7 (by decide)) ∧
      (merge next? generators.reverse time none).pulls = 5 := by
  intro next? generators time
  have hperm : generators.Perm generators.reverse := (List.reverse_perm generators).symm
  obtain ⟨hfound, hpulls⟩ := (merge_by_columns next? generators time none).2.2 _ hperm
  refine ⟨hperm, hfound.trans ?_, hpulls.trans ?_⟩
  · decide +kernel
  · decide +kernel

end Almanac.Occurrence

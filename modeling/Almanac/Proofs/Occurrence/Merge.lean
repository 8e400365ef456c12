import Almanac.Proofs.Occurrence.First

/-!
The merge of generators that are all past the query with their first instants.
-/

namespace Almanac.Occurrence

open Calendar

variable {σ : Type} {next? : σ → Option (Instant × σ)} {time : Instant} {stop : Option Instant}

theorem snd_advance_of_isNotPast {g : σ}
    (hstop : ∀ i rest, next? g = some (i, rest) → ∀ e ∈ stop, i ≤ e) :
    (Feed.advance next? stop { state := g }).2 = (next? g).map Prod.fst := by
  unfold Feed.advance
  cases hnext : next? g with
  | none => rfl
  | some answer =>
    obtain ⟨i, rest⟩ := answer
    have hnotPast : ¬ stop.any (· < i) = true := by
      intro hpast
      obtain ⟨e, he, hlt⟩ := Instant.any_lt_iff.1 hpast
      exact Instant.not_lt.2 (hstop i rest hnext e he) hlt
    simp only [if_true, if_neg hnotPast, Option.map_some]

/-- A question is counted whatever the answer to it is. -/
theorem asked_fst_advance (g : σ) : (Feed.advance next? stop { state := g }).1.asked = 1 := by
  unfold Feed.advance
  cases next? g with
  | none => rfl
  | some answer =>
    simp only [if_true]
    split <;> rfl

/-- Generators whose first instants are after the query and not past the end are asked once: the
first round decides, however many more there might be. -/
theorem mergeRounds_succ (generators : List σ)
    (hfirst : ∀ g ∈ generators, ∀ i rest, next? g = some (i, rest) → time < i ∧ ∀ e ∈ stop, i ≤ e)
    (rounds : Nat) :
    mergeRounds next? time stop (rounds + 1) (generators.map fun g => { state := g }) =
      ⟨earliest (generators.map fun g => (next? g).map Prod.fst), generators.map fun _ => 1⟩ := by
  have hanswers : ((generators.map fun g => ({ state := g } : Feed σ)).map
      (Feed.advance next? stop)).map Prod.snd =
      generators.map fun g => (next? g).map Prod.fst := by
    simp only [List.map_map]
    refine List.map_congr_left fun g hg => ?_
    exact snd_advance_of_isNotPast fun i rest hnext => (hfirst g hg i rest hnext).2
  have hasked : (((generators.map fun g => ({ state := g } : Feed σ)).map
      (Feed.advance next? stop)).map Prod.fst).map Feed.asked = generators.map fun _ => 1 := by
    simp only [List.map_map]
    exact List.map_congr_left fun g _ => asked_fst_advance g
  unfold mergeRounds
  simp only [hanswers, hasked]
  cases hearliest : earliest (generators.map fun g => (next? g).map Prod.fst) with
  | none => rfl
  | some i =>
    obtain ⟨g, hg, hmap⟩ := List.mem_map.1 (mem_of_earliest_eq_some hearliest)
    obtain ⟨⟨_, rest⟩, hnext, rfl⟩ := Option.map_eq_some_iff.1 hmap
    have hafter := (hfirst g hg _ rest hnext).1
    simp only [if_pos hafter]

/-- So the limit on rounds plays no part. -/
theorem merge_eq_of_first (generators : List σ)
    (hfirst : ∀ g ∈ generators, ∀ i rest, next? g = some (i, rest) → time < i ∧ ∀ e ∈ stop, i ≤ e) :
    merge next? generators time stop =
      ⟨earliest (generators.map fun g => (next? g).map Prod.fst), generators.map fun _ => 1⟩ :=
  mergeRounds_succ generators hfirst _

end Almanac.Occurrence

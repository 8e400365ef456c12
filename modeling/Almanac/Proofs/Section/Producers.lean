import Almanac.Proofs.Section.Join

/-!
The recurrences behind a section. Whatever its variant, a section that says when something happens
answers with the earliest of what its recurrences come to, each searched on its own.
-/

namespace Almanac.Section

open Calendar Occurrence

/-- The recurrences that the occurrences of a section are those of, each with its filters. A moment
is a recurrence that happens once. -/
def producers : Section → List Filtered
  | moment i => [⟨.once i, []⟩]
  | recurrence r => [⟨r, []⟩]
  | filtered m => [m]
  | group members => members
  | epoch seconds => (epochInstant? seconds).toList.map fun i => ⟨.once i, []⟩
  | _ => []

variable {s : Section} {m : Filtered} {time i : Instant} {seconds : Binary64}

theorem following_epoch (h : epochInstant? seconds = some i) :
    (epoch seconds).following = (moment i).following := by
  funext time
  simp only [following, h, Option.bind_some]

theorem producers_epoch (h : epochInstant? seconds = some i) :
    (epoch seconds).producers = (moment i).producers := by
  simp only [producers, h, Option.toList_some, List.map_cons, List.map_nil]

theorem following_eq_earliest (s : Section) (time : Instant) :
    s.following time = earliest (s.producers.map (·.following time)) := by
  cases s with
  | moment i => exact (answersLike_moment i).following time
  | recurrence r => exact (answersLike_recurrence r).following time
  | filtered m => exact (answersLike_filtered m).following time
  | group members => exact (answersLike_group members).following time
  | epoch seconds =>
    cases h : epochInstant? seconds with
    | none => simp [following, producers, h, earliest]
    | some i =>
      rw [following_epoch h, producers_epoch h]
      exact (answersLike_moment i).following time
  | _ => rfl

theorem nextAdmitted_eq_earliest (s : Section) (time : Instant) :
    s.nextAdmitted time = .earliest (s.producers.map (·.nextAdmitted time)) := by
  cases s with
  | moment i => exact (answersLike_moment i).nextAdmitted time
  | recurrence r => exact (answersLike_recurrence r).nextAdmitted time
  | filtered m => exact (answersLike_filtered m).nextAdmitted time
  | group members => exact (answersLike_group members).nextAdmitted time
  | epoch seconds =>
    change firstAdmitted (epoch seconds).following (fun _ => true) time = _
    cases h : epochInstant? seconds with
    | none =>
      rw [firstAdmitted_of_forall_admits (fun _ => rfl)]
      simp [following, producers, h, Answer.earliest]
    | some i =>
      rw [following_epoch h, producers_epoch h]
      exact (answersLike_moment i).nextAdmitted time
  | _ => rfl

/-- A section admits what any of its recurrences admits. -/
theorem admits_of_mem_producers (hm : m ∈ s.producers) (hadmits : m.admits i = true) :
    s.admits i = true := by
  cases s with
  | filtered m' =>
    obtain rfl := List.mem_singleton.1 hm
    exact hadmits
  | group members => exact List.any_eq_true.2 ⟨m, hm, hadmits⟩
  | moment | recurrence | epoch => rfl
  | _ => cases hm

end Almanac.Section

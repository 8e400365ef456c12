import Almanac.Proofs.Occurrence.Following
import Almanac.Proofs.Reduction.NormalForm

/-!
Complete expressions. What passes the check is something that starts, and as its groups have members
it starts somewhere: asked early enough it names its earliest start.
-/

namespace Almanac.Section

open Calendar Occurrence

/-- Where the recurrences of a section start. -/
def starts (s : Section) : Set Instant :=
  {i | i ∈ s.producers.map (·.recurrence.start)}

/-- Where the recurrences of a section end. -/
def stops (s : Section) : Set Instant :=
  {i | i ∈ s.producers.filterMap (·.recurrence.stopInstant?)}

variable {s : Section} {m : Filtered} {time : Instant}

theorem start_mem_starts (hm : m ∈ s.producers) : m.recurrence.start ∈ s.starts :=
  List.mem_map.2 ⟨m, hm, rfl⟩

/-- Every section has a first start, unless it has no start. -/
theorem isFirst_starts (s : Section) :
    IsFirst s.starts (earliest (s.producers.map fun m => some m.recurrence.start)) := by
  have hfirst := isFirst_earliest s.producers (fun m => {i | some m.recurrence.start = some i})
    (fun m => some m.recurrence.start) fun m _ => isFirst_setOf_eq_some _
  refine hfirst.congr fun i => ?_
  simp only [starts, Set.mem_ofPred_eq, List.mem_map, Option.some.injEq]

/-- Before all starts, and as long as nothing has ended, each recurrence of a section is still to
start, so the next occurrence is the first start. -/
theorem following_of_lt_starts (hstarts : ∀ i ∈ s.starts, time < i)
    (hstops : ∀ i ∈ s.stops, time ≤ i) :
    s.following time = earliest (s.producers.map fun m => some m.recurrence.start) := by
  rw [following_eq_earliest]
  congr 1
  refine List.map_congr_left fun m hm => ?_
  have hstart := hstarts _ (start_mem_starts hm)
  refine Recurrence.following_of_lt_start hstart fun stop hstop => ?_
  exact hstops stop (List.mem_filterMap.2 ⟨m, hm, hstop⟩)

/-- Of the sections without shorthand only those that start say when something happens. -/
theorem kind_of_tellsWhen (hsimple : s.kind.isSimple = true) (htells : s.tellsWhen = true) :
    s.kind ∈ [.moment, .recurrence, .group] := by
  cases s with
  | moment | recurrence | group => simp [kind]
  | filter | intervals | interval | amount | duration | forever | time | date => cases htells
  | _ => cases hsimple

/-- A complete section has a start, since there is a member in every group. -/
theorem IsNormal.starts_nonempty (h : s.IsNormal) (htells : s.tellsWhen = true) :
    s.starts.Nonempty := by
  obtain ⟨members, hmembers⟩ := exists_members?_eq_some (kind_of_tellsWhen h.isSimple htells)
  have hproducers : ∃ m, m ∈ s.producers := by
    cases s with
    | moment | recurrence => exact ⟨_, List.mem_singleton_self _⟩
    | group members => exact List.exists_mem_of_ne_nil members h.isWellFormed.1
    | _ => cases hmembers
  obtain ⟨m, hm⟩ := hproducers
  exact ⟨m.recurrence.start, start_mem_starts hm⟩

/-- A complete text says when something happens: what it stands for is a moment, a recurrence or a
group, and asked before all of its starts and not after any of its ends it answers with the earliest
start, whatever numbers are drawn. -/
theorem following_eq_earliest_start {ctx : Context} {text : String}
    {g g' : Generator} (hregistry : ctx.registry = .defaults)
    (h : (ofText ctx true text).run g = .ok (.ok s, g')) :
    s.kind ∈ [.moment, .recurrence, .group] ∧ ∃ first, IsLeast s.starts first ∧
      ∀ time, (∀ i ∈ s.starts, time < i) → (∀ i ∈ s.stops, time ≤ i) →
        s.following time = some first := by
  obtain ⟨tree, hread, hreduce, htells⟩ :=
    exists_reduce_of_ofText (Reduction.canReturn_of_run h)
  have hnormal := Expression.isNormal_of_reduce hregistry hread hreduce
  refine ⟨kind_of_tellsWhen hnormal.isSimple (htells rfl), ?_⟩
  have hfirst := isFirst_starts s
  cases hearliest : earliest (s.producers.map fun m => some m.recurrence.start) with
  | none =>
    rw [hearliest] at hfirst
    exact absurd hfirst (hnormal.starts_nonempty (htells rfl)).ne_empty
  | some first =>
    refine ⟨first, hfirst.eq_some_iff.1 hearliest, fun time hstarts hstops => ?_⟩
    rw [following_of_lt_starts hstarts hstops, hearliest]

/-- From Friday to Monday, at nine only, or every so many days, drawn twice: asked a day before the
clock it answers with what the clock shows, the earlier of its two starts. -/
theorem following_eq_earliest_start_friday_or_now :
    let ctx : Context := { registry := .defaults, now := .midnight 0 (by decide) }
    let days := "range(min: amount(num: 1, size: day), max: amount(num: 5, size: day))"
    let text := "between(start: day_name(name: fri), end: day_name(name: mon)) & " ++
      "filter(hours: 9) | repeat(start: now(), every: interval(every: range(min: " ++ days ++
      ", max: " ++ days ++ ")))"
    let time := Instant.midnight (-1) (by decide)
    ∃ s g', (ofText ctx true text).run .rising = .ok (.ok s, g') ∧
      s.kind ∈ [.moment, .recurrence, .group] ∧
      (∀ i ∈ s.starts, time < i) ∧ (∀ i ∈ s.stops, time ≤ i) ∧
      IsLeast s.starts ctx.now ∧ s.following time = some ctx.now := by
  intro ctx days text time
  let friday := Instant.midnight 1 (by decide)
  let monday := Instant.midnight 4 (by decide)
  let bounds (s : Section) : List Instant × List Instant :=
    (s.producers.map (·.recurrence.start), s.producers.filterMap (·.recurrence.stopInstant?))
  have hshape : ((ofText ctx true text).result? .rising).map (bounds ·.1) =
      some ([friday, ctx.now], [monday]) := by decide +kernel
  obtain ⟨s, g', hrun, hinstants⟩ := Reduction.exists_of_map_result?_eq_some hshape
  rw [Prod.mk.injEq] at hinstants
  obtain ⟨hproduced, hended⟩ := hinstants
  have hstarts : ∀ i ∈ s.starts, time < i := by
    change ∀ i ∈ s.producers.map (·.recurrence.start), time < i
    rw [hproduced]
    decide
  have hstops : ∀ i ∈ s.stops, time ≤ i := by
    change ∀ i ∈ s.producers.filterMap (·.recurrence.stopInstant?), time ≤ i
    rw [hended]
    decide
  obtain ⟨hkind, first, hfirst, hfollowing⟩ := following_eq_earliest_start rfl hrun
  have hleast : IsLeast s.starts ctx.now := by
    change ctx.now ∈ s.producers.map (·.recurrence.start) ∧
      ∀ i ∈ s.producers.map (·.recurrence.start), ctx.now ≤ i
    rw [hproduced]
    decide
  have hsame : first = ctx.now :=
    Instant.le_antisymm (hfirst.2 hleast.1) (hleast.2 hfirst.1)
  exact ⟨s, g', hrun, hkind, hstarts, hstops, hleast, hsame ▸ hfollowing time hstarts hstops⟩

end Almanac.Section

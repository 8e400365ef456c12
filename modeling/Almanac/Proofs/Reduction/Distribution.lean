import Almanac.Proofs.Filter
import Almanac.Proofs.Reduction.Join

/-!
Filters in joins. A filter on alternatives is the filter on each of them. Two filters in turn hold
back what either of them holds back; as one filter with the values of both they may hold back less,
unless no field has values in both.
-/

namespace Almanac

open Calendar Occurrence Reduction

variable {f g : Filter}

namespace Occurrence.Filtered

theorem admits_withFilter_union (h : f.IsApart g) (m : Filtered) (i : Instant) :
    (m.withFilter (f.union g)).admits i = ((m.withFilter f).withFilter g).admits i := by
  rw [admits_withFilter, admits_withFilter, admits_withFilter, h.admits_union, Bool.and_assoc]

theorem nextAdmitted_withFilter_union (h : f.IsApart g) (m : Filtered) (time : Instant) :
    (m.withFilter (f.union g)).nextAdmitted time =
      ((m.withFilter f).withFilter g).nextAdmitted time := by
  have hadmits := funext (admits_withFilter_union h m)
  -- Filters do not move occurrences, so only what is admitted matters to the search.
  exact congrArg (fun admits => firstAdmitted m.following admits time) hadmits

end Occurrence.Filtered

namespace Section

variable {ctx : Context} {s simple a b either held first second apart : Section}
  {members : List Filtered}

/-- What may have a filter is something that starts, and another filter. -/
theorem and_filter_eq_ok (h : s.and (filter f) = .ok held) :
    (∃ members, s.members? = some members) ∨ ∃ g, s = filter g := by
  cases s with
  | moment | recurrence | group => exact .inl ⟨_, rfl⟩
  | filter g => exact .inr ⟨g, rfl⟩
  | _ => cases h

/-- Whatever it was before, something that starts is a group once it has a filter. -/
theorem joinSimply_and_filter (hsimple : s.simplify ctx = pure simple)
    (hmembers : simple.members? = some members) (f : Filter) :
    joinSimply ctx .and s (filter f) = pure (groupWithFilter members f) := by
  unfold joinSimply
  rw [hsimple]
  cases simple with
  | moment | recurrence | group => cases hmembers; rfl
  | _ => cases hmembers

theorem canReturn_joinSimply_and_filter
    (h : (joinSimply ctx .and s (filter f)).CanReturn held) :
    ∃ simple, s.simplify ctx = pure simple ∧
      ((∃ members, simple.members? = some members ∧ held = groupWithFilter members f) ∨
        ∃ g, simple = filter g ∧ held = filter (g.union f)) := by
  obtain ⟨simple, _, _, hsimple, hfilter, hand, hheld⟩ := canReturn_joinSimply h
  cases canReturn_pure_iff.1 hfilter
  have hdrawn := simplify_eq_pure_or_amount hsimple
  rcases and_filter_eq_ok hand with ⟨members, hmembers⟩ | ⟨g, rfl⟩
  · have hsimple := hdrawn.resolve_right fun hamount => by
      obtain ⟨a, rfl⟩ := hamount
      cases hmembers
    rw [joinSimply_and_filter hsimple hmembers f, canReturn_pure_iff] at h
    exact ⟨simple, hsimple, .inl ⟨members, hmembers, h.symm⟩⟩
  · have hsimple := hdrawn.resolve_right fun ⟨a, ha⟩ => nomatch ha
    cases hand
    cases canReturn_pure_iff.1 hheld
    exact ⟨_, hsimple, .inr ⟨g, rfl, rfl⟩⟩

/-- Alternatives are no shorthand, so nothing is left to simplify in them. -/
theorem canReturn_joinSimply_or (h : (joinSimply ctx .or a b).CanReturn either) :
    ∃ simpleA simpleB, (a.simplify ctx).CanReturn simpleA ∧ (b.simplify ctx).CanReturn simpleB ∧
      simpleA.or simpleB = .ok either := by
  obtain ⟨simpleA, simpleB, joined, ha, hb, hor, heither⟩ := canReturn_joinSimply h
  have hsame : joined.simplify ctx = pure joined := by
    rcases or_eq_ok hor with ⟨_, _, -, -, rfl⟩ | ⟨_, _, -, -, rfl⟩ | ⟨_, _, -, -, -, rfl⟩ <;> rfl
  rw [hsame, canReturn_pure_iff] at heither
  exact ⟨simpleA, simpleB, ha, hb, heither ▸ hor⟩

/-- A filter on alternatives is a filter on each of them. -/
theorem eq_of_filter_distributed (heither : (joinSimply ctx .or a b).CanReturn either)
    (hheld : (joinSimply ctx .and either (filter f)).CanReturn held)
    (hfirst : (joinSimply ctx .and a (filter f)).CanReturn first)
    (hsecond : (joinSimply ctx .and b (filter f)).CanReturn second)
    (hapart : (joinSimply ctx .or first second).CanReturn apart) : held = apart := by
  obtain ⟨simpleA, simpleB, ha, hb, hor⟩ := canReturn_joinSimply_or heither
  obtain ⟨_, ha', hcasesA⟩ := canReturn_joinSimply_and_filter hfirst
  obtain ⟨_, hb', hcasesB⟩ := canReturn_joinSimply_and_filter hsecond
  rw [ha', canReturn_pure_iff] at ha
  rw [hb', canReturn_pure_iff] at hb
  subst ha hb
  obtain ⟨_, _, hsame, hsame', hor'⟩ := canReturn_joinSimply_or hapart
  -- There are no alternatives to filters, so both sides start.
  rcases hcasesA with ⟨members, hmembers, rfl⟩ | ⟨g, rfl, rfl⟩
  · cases canReturn_pure_iff.1 hsame
    obtain ⟨others', hothers', rfl⟩ := or_of_group hor'
    rcases hcasesB with ⟨others, hothers, rfl⟩ | ⟨g, rfl, rfl⟩
    · cases canReturn_pure_iff.1 hsame'
      cases hothers'
      cases hor.symm.trans (or_eq_group hmembers hothers)
      rw [joinSimply_and_filter rfl rfl f, canReturn_pure_iff] at hheld
      exact hheld.symm.trans (congrArg group List.map_append)
    · cases canReturn_pure_iff.1 hsame'
      cases hothers'
  · cases canReturn_pure_iff.1 hsame
    rcases or_eq_ok hor' with ⟨_, _, hleft, -, -⟩ | ⟨_, _, hleft, -, -⟩ | ⟨_, _, hleft, -, -, -⟩ <;>
      cases hleft

/-- A filter moves no occurrence. -/
theorem following_groupWithFilter (members : List Filtered) (f : Filter) (time : Instant) :
    (groupWithFilter members f).following time = (group members).following time := by
  simp only [groupWithFilter, (answersLike_group _).following, List.map_map]
  rfl

theorem following_groupWithFilter_union (members : List Filtered) (f g : Filter) (time : Instant) :
    (groupWithFilter (members.map (·.withFilter f)) g).following time =
      (groupWithFilter members (f.union g)).following time := by
  rw [following_groupWithFilter, following_groupWithFilter]
  exact following_groupWithFilter members f time

theorem admits_groupWithFilter (members : List Filtered) (f : Filter) (i : Instant) :
    (groupWithFilter members f).admits i = ((group members).admits i && f.admits i) :=
  any_admits_withFilter members f i

/-- Of filters on different fields it does not matter whether they are put on in turn or at once. -/
theorem answersAlike_groupWithFilter (h : f.IsApart g) (members : List Filtered) :
    (groupWithFilter (members.map (·.withFilter f)) g).AnswersAlike
      (groupWithFilter members (f.union g)) where
  following time := following_groupWithFilter_union members f g time
  nextAdmitted time := by
    simp only [groupWithFilter, (answersLike_group _).nextAdmitted, List.map_map]
    congr 2
    funext m
    exact (Filtered.nextAdmitted_withFilter_union h m time).symm
  admits i := by
    rw [admits_groupWithFilter, admits_groupWithFilter, h.admits_union, ← Bool.and_assoc]
    exact congrArg (· && g.admits i) (admits_groupWithFilter members f i)

/-- What two filters in turn admit they admit at once, even if they share fields. -/
theorem admits_groupWithFilter_union {members : List Filtered} {i : Instant}
    (h : (groupWithFilter (members.map (·.withFilter f)) g).admits i = true) :
    (groupWithFilter members (f.union g)).admits i = true := by
  rw [admits_groupWithFilter, Bool.and_eq_true] at h ⊢
  obtain ⟨hfirst, hg⟩ := h
  have hfirst : (groupWithFilter members f).admits i = true := hfirst
  rw [admits_groupWithFilter, Bool.and_eq_true] at hfirst
  exact ⟨hfirst.1, Filter.admits_union hfirst.2 hg⟩

/-- A filter on alternatives is the same section as the filter on each of them, wherever both can be
written. What starts can always have one filter and then another, or both as one filter: the
occurrences are the same. All that filters in turn admit they admit as one, and if no field has
values in both they are searched and admit alike. -/
theorem filters_distributed_and_united (ctx : Context) (f g : Filter) :
    (∀ a b either held first second apart,
      (joinSimply ctx .or a b).CanReturn either →
      (joinSimply ctx .and either (filter f)).CanReturn held →
      (joinSimply ctx .and a (filter f)).CanReturn first →
      (joinSimply ctx .and b (filter f)).CanReturn second →
      (joinSimply ctx .or first second).CanReturn apart → held = apart) ∧
    ∀ s : Section, s.kind ∈ [.moment, .recurrence, .group] →
      ∃ once twice both atOnce,
        joinSimply ctx .and s (filter f) = pure once ∧
        joinSimply ctx .and once (filter g) = pure twice ∧
        joinSimply ctx .and (filter f) (filter g) = pure both ∧
        joinSimply ctx .and s both = pure atOnce ∧
        (∀ time, twice.following time = atOnce.following time) ∧
        (f.IsApart g → ∀ time, twice.nextAdmitted time = atOnce.nextAdmitted time ∧
          twice.admits time = atOnce.admits time) ∧
        ∀ i, twice.admits i = true → atOnce.admits i = true := by
  refine ⟨?_, fun s hs => ?_⟩
  · intro a b either held first second apart heither hheld hfirst hsecond hapart
    exact eq_of_filter_distributed heither hheld hfirst hsecond hapart
  · obtain ⟨members, hmembers⟩ := exists_members?_eq_some hs
    have hsimple : s.simplify ctx = pure s :=
      simplify_eq_self (isSimple_of_members?_eq_some hmembers) ctx
    refine ⟨_, _, _, _, joinSimply_and_filter hsimple hmembers f, joinSimply_and_filter rfl rfl g,
      rfl, joinSimply_and_filter hsimple hmembers (f.union g),
      following_groupWithFilter_union members f g, fun h time => ?_,
      fun i => admits_groupWithFilter_union⟩
    have halike := answersAlike_groupWithFilter h members
    exact ⟨halike.nextAdmitted time, halike.admits time⟩

/-- What the clock shows or every day, on Mondays: one group, whether the filter is put on both
together or on each. Every day on Mondays at midnight comes next on the first Monday, with two
filters and with one. -/
theorem filters_distributed_and_united_mondays :
    let start := Instant.midnight 0 (by decide)
    let monday := Instant.midnight 4 (by decide)
    let ctx : Context := { registry := .empty, now := start }
    let daily := recurrence { start := start, every := some [.amount ⟨1, .day⟩] }
    let mondays : Filter := { weekdays := .ofList [.monday] }
    let midnights : Filter := { minutes := .ofList [0], hours := .ofList [0] }
    (∃ either held first second, joinSimply ctx .or now daily = pure either ∧
      joinSimply ctx .and either (filter mondays) = pure held ∧
      joinSimply ctx .and now (filter mondays) = pure first ∧
      joinSimply ctx .and daily (filter mondays) = pure second ∧
      joinSimply ctx .or first second = pure held) ∧
    daily.kind ∈ [.moment, .recurrence, .group] ∧ mondays.IsApart midnights ∧
      ∃ once twice both atOnce, joinSimply ctx .and daily (filter mondays) = pure once ∧
        joinSimply ctx .and once (filter midnights) = pure twice ∧
        joinSimply ctx .and (filter mondays) (filter midnights) = pure both ∧
        joinSimply ctx .and daily both = pure atOnce ∧
        twice.nextAdmitted start = .ok (some monday) ∧
        atOnce.nextAdmitted start = .ok (some monday) ∧
        twice.admits monday = true ∧ atOnce.admits monday = true := by
  intro start monday ctx daily mondays midnights
  obtain ⟨hdistributed, hunited⟩ := filters_distributed_and_united ctx mondays midnights
  have hdaily : daily.kind ∈ [.moment, .recurrence, .group] := by decide
  have hpart : mondays.IsApart midnights :=
    ⟨.inl rfl, .inl rfl, .inl rfl, .inl rfl, .inl rfl, .inr rfl, .inl rfl⟩
  refine ⟨?_, hdaily, hpart, ?_⟩
  · have hsame := hdistributed now daily _ _ _ _ _ (canReturn_of_eq_pure rfl)
      (canReturn_of_eq_pure rfl) (canReturn_of_eq_pure rfl) (canReturn_of_eq_pure rfl)
      (canReturn_of_eq_pure rfl)
    exact ⟨_, _, _, _, rfl, rfl, rfl, rfl, congrArg pure hsame.symm⟩
  · obtain ⟨once, twice, both, atOnce, honce, htwice, hboth, hatOnce, -, halike, hmore⟩ :=
      hunited daily hdaily
    obtain ⟨hnext, -⟩ := halike hpart start
    have hsameOnce := eq_of_pure_eq ((joinSimply_and_filter rfl rfl mondays).symm.trans honce)
    subst hsameOnce
    have hsameTwice := eq_of_pure_eq ((joinSimply_and_filter rfl rfl midnights).symm.trans htwice)
    have hanswer : twice.nextAdmitted start = .ok (some monday) := by
      rw [← hsameTwice]
      decide +kernel
    have hadmits : twice.admits monday = true := by
      rw [← hsameTwice]
      decide +kernel
    exact ⟨_, twice, both, atOnce, honce, htwice, hboth, hatOnce, hanswer,
      hnext.symm.trans hanswer, hadmits, hmore monday hadmits⟩

end Section

end Almanac

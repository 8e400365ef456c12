import Almanac.Occurrence.Search
import Almanac.Proofs.Occurrence.First

/-!
The answers of several searches taken together. Taking the earlier of two answers is associative and
commutative, so it does not matter how a list of searches is split or in which order its parts come.
-/

namespace Almanac.Occurrence

open Calendar

theorem earlier_none (answer : Option Instant) : earlier answer none = answer := by
  cases answer with
  | none => rfl
  | some i => rfl

theorem isFirst_setOf_eq_some (answer : Option Instant) : IsFirst {i | answer = some i} answer := by
  cases answer with
  | none =>
    apply isFirst_none
    rintro i hi
    cases hi
  | some i =>
    refine ⟨rfl, ?_⟩
    rintro j hj
    cases hj
    exact Instant.le_refl i

theorem earlier_assoc (a b c : Option Instant) :
    earlier (earlier a b) c = earlier a (earlier b c) := by
  have ha := isFirst_setOf_eq_some a
  have hb := isFirst_setOf_eq_some b
  have hc := isFirst_setOf_eq_some c
  have hleft := (ha.earlier hb).earlier hc
  have hright := ha.earlier (hb.earlier hc)
  rw [Set.union_assoc] at hleft
  exact hleft.unique hright

theorem earlier_comm (a b : Option Instant) : earlier a b = earlier b a := by
  have hleft := (isFirst_setOf_eq_some a).earlier (isFirst_setOf_eq_some b)
  have hright := (isFirst_setOf_eq_some b).earlier (isFirst_setOf_eq_some a)
  rw [Set.union_comm] at hleft
  exact hleft.unique hright

theorem earlier_self (a : Option Instant) : earlier a a = a := by
  have hfirst := (isFirst_setOf_eq_some a).earlier (isFirst_setOf_eq_some a)
  rw [Set.union_self] at hfirst
  exact hfirst.unique (isFirst_setOf_eq_some a)

theorem earlier_eq_none_iff {a b : Option Instant} :
    earlier a b = none ↔ a = none ∧ b = none := by
  cases a <;> cases b <;> simp [earlier]

/-- Of two answers one is the earlier. -/
theorem eq_some_or_of_earlier_eq_some {answer other : Option Instant} {i : Instant}
    (h : earlier answer other = some i) : answer = some i ∨ other = some i := by
  have hfirst := (isFirst_setOf_eq_some answer).earlier (isFirst_setOf_eq_some other)
  rw [h] at hfirst
  exact hfirst.mem

theorem earliest_singleton (answer : Option Instant) : earliest [answer] = answer :=
  earlier_none answer

theorem earliest_pair (a b : Option Instant) : earliest [a, b] = earlier a b :=
  congrArg (earlier a) (earlier_none b)

theorem earliest_append (answers others : List (Option Instant)) :
    earliest (answers ++ others) = earlier (earliest answers) (earliest others) := by
  induction answers with
  | nil => rfl
  | cons head rest ih =>
    change earlier head (earliest (rest ++ others)) =
      earlier (earlier head (earliest rest)) (earliest others)
    rw [ih, earlier_assoc]

namespace Answer

theorem earlier_assoc (a b c : Answer) : (a.earlier b).earlier c = a.earlier (b.earlier c) := by
  cases a with
  | error _ => rfl
  | ok a =>
    cases b with
    | error _ => rfl
    | ok b =>
      cases c with
      | error _ => rfl
      | ok c => exact congrArg Except.ok (Occurrence.earlier_assoc a b c)

/-- It does not matter which search breaks off, as they all break off for the same reason. -/
theorem earlier_comm (a b : Answer) : a.earlier b = b.earlier a := by
  cases a with
  | error e =>
    cases b with
    | error e' => cases e; cases e'; rfl
    | ok b => rfl
  | ok a =>
    cases b with
    | error _ => rfl
    | ok b => exact congrArg Except.ok (Occurrence.earlier_comm a b)

theorem earliest_singleton (answer : Answer) : earliest [answer] = answer := by
  cases answer with
  | error _ => rfl
  | ok answer => exact congrArg Except.ok (earlier_none answer)

theorem earliest_append (answers others : List Answer) :
    earliest (answers ++ others) = (earliest answers).earlier (earliest others) := by
  induction answers with
  | nil =>
    change earliest others = earlier (.ok none) (earliest others)
    cases earliest others with
    | error _ => rfl
    | ok answer => rfl
  | cons head rest ih =>
    change head.earlier (earliest (rest ++ others)) =
      (head.earlier (earliest rest)).earlier (earliest others)
    rw [ih, earlier_assoc]

/-- Where no search broke off the earliest answer is that of the earliest instant found. -/
theorem earliest_map_eq_ok {ι : Type} {members : List ι} {search : ι → Answer}
    {found : ι → Option Instant} (h : ∀ m ∈ members, search m = .ok (found m)) :
    earliest (members.map search) = .ok (Occurrence.earliest (members.map found)) := by
  induction members with
  | nil => rfl
  | cons m rest ih =>
    change (search m).earlier (earliest (rest.map search)) = _
    rw [h m (List.mem_cons_self ..), ih fun n hn => h n (List.mem_cons_of_mem m hn)]
    rfl

theorem earliest_eq_error {answers : List Answer} {e : Interruption} (h : .error e ∈ answers) :
    earliest answers = .error e := by
  induction answers with
  | nil => cases h
  | cons head rest ih =>
    change head.earlier (earliest rest) = .error e
    cases head with
    | error e' =>
      cases e
      cases e'
      rfl
    | ok answer =>
      rcases List.mem_cons.1 h with hhead | hrest
      · cases hhead
      · rw [ih hrest]
        rfl

/-- An instant that several searches come to together is what one of them comes to. -/
theorem mem_of_earliest_eq_ok_some {answers : List Answer} {i : Instant}
    (h : earliest answers = .ok (some i)) : .ok (some i) ∈ answers := by
  induction answers with
  | nil => cases h
  | cons head rest ih =>
    change head.earlier (earliest rest) = .ok (some i) at h
    cases head with
    | error _ => cases h
    | ok answer =>
      cases hrest : earliest rest with
      | error _ =>
        rw [hrest] at h
        cases h
      | ok other =>
        rw [hrest] at h
        rcases eq_some_or_of_earlier_eq_some (Except.ok.inj h) with rfl | rfl
        · exact List.mem_cons_self ..
        · exact List.mem_cons_of_mem _ (ih hrest)

end Answer

/-- Where every instant passes, the admitted search stops at the next occurrence. -/
theorem firstAdmitted_of_forall_admits {following : Instant → Option Instant}
    {admits : Instant → Bool} (hadmits : ∀ i, admits i = true) (time : Instant) :
    firstAdmitted following admits time = .ok (following time) := by
  unfold firstAdmitted maxRounds walkAdmitted
  cases following time with
  | none => rfl
  | some candidate => simp only [hadmits, if_true]

end Almanac.Occurrence

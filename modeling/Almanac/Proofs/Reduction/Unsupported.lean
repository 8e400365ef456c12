import Almanac.Proofs.Expression.Places
import Almanac.Proofs.Reduction.Call
import Almanac.Proofs.Reduction.Join

/-!
Which pair the error of a join tells. It is the error of the first join without a rule for its
sides, in the order in which the joins are made. Its kinds are those of the two sides, but `or`
tells a moment on the left as the recurrence that it counts as.
-/

namespace Almanac

open Expression Reduction

variable {ctx : Context} {joiner : Joiner} {left right s : Section} {l r : Section.Kind}
  {g g' : Generator}

namespace Section

/-- The kind that a joiner tells for a left side. -/
def Kind.told (joiner : Joiner) (kind : Kind) : Kind :=
  if joiner = .or ∧ kind = .moment then .recurrence else kind

theorem Kind.told_eq_self_iff {kind : Kind} :
    kind.told joiner = kind ↔ ¬ (joiner = .or ∧ kind = .moment) := by
  unfold told
  split_ifs with h
  · simp [h]
  · simp [h]

theorem momentAt_ne_unsupported (d : Calendar.Date) (c : Calendar.ClockTime) :
    momentAt d c ≠ .error (.unsupported joiner l r) := by
  unfold momentAt
  split
  · exact nofun
  · exact nofun

theorem and_eq_unsupported (h : left.and right = .error (.unsupported joiner l r)) :
    joiner = .and ∧ l = left.kind ∧ r = right.kind := by
  unfold Section.and at h
  split at h
  case h_14 => exact absurd h (momentAt_ne_unsupported _ _)
  case h_15 => exact absurd h (momentAt_ne_unsupported _ _)
  case h_16 =>
    cases h
    exact ⟨rfl, rfl, rfl⟩
  all_goals cases h

theorem told_or_of_recurrence?_eq_none (h : s.recurrence? = none) :
    s.kind.told .or = s.kind := by
  cases s with
  | moment => cases h
  | _ => rfl

theorem told_or_of_recurrence?_eq_some {repeated : Occurrence.Recurrence}
    (h : s.recurrence? = some repeated) : s.kind.told .or = .recurrence := by
  cases s with
  | moment | recurrence => rfl
  | _ => cases h

theorem or_eq_unsupported (h : left.or right = .error (.unsupported joiner l r)) :
    joiner = .or ∧ l = left.kind.told .or ∧ r = right.kind := by
  unfold Section.or at h
  split at h
  case h_1 => cases h
  case h_2 =>
    split at h
    · cases h
    · cases h
      exact ⟨rfl, rfl, rfl⟩
  case h_3 =>
    split at h
    · cases h
    · rename_i hleft
      cases h
      exact ⟨rfl, (told_or_of_recurrence?_eq_none hleft).symm, rfl⟩
  case h_4 =>
    split at h
    · cases h
    · split at h
      · rename_i hleft
        cases h
        exact ⟨rfl, (told_or_of_recurrence?_eq_none hleft).symm, rfl⟩
      · rename_i repeated hleft
        split at h
        · cases h
        · cases h
          exact ⟨rfl, (told_or_of_recurrence?_eq_some hleft).symm, rfl⟩

/-- A pair without a rule is told as it is, except that `or` takes a moment for a recurrence. -/
theorem join_eq_unsupported {tried : Joiner}
    (h : join tried left right = .error (.unsupported joiner l r)) :
    joiner = tried ∧ l = left.kind.told tried ∧ r = right.kind := by
  cases tried with
  | and => exact and_eq_unsupported h
  | or => exact or_eq_unsupported h

/-- Taking shorthand out of a section joins nothing. -/
theorem simplify_ne_unsupported (s : Section) (ctx : Context) :
    (s.simplify ctx).run g ≠ .ok (.error (.unsupported joiner l r), g') := by
  intro h
  cases s with
  | epoch seconds =>
    simp only [simplify] at h
    split at h
    · cases h
    · cases h
  | range low high =>
    simp only [simplify, Context.drawAmount] at h
    split_ifs at h
    · cases h
    · cases h
  | literal literal =>
    simp only [simplify, WrittenLiteral.expand] at h
    split at h
    case h_5 =>
      split at h
      · cases h
      · cases h
    all_goals cases h
  | _ => cases h

theorem checkComplete_ne_unsupported (s : Section) :
    s.checkComplete ≠ .error (.unsupported joiner l r) := by
  unfold checkComplete
  split_ifs
  · exact nofun
  · exact nofun
  · exact nofun

end Section

/-- What a call does not accept is a problem of its arguments, and those are no joins. -/
theorem Context.callSection_ne_unsupported (ctx : Context) (name : String)
    (args : List (String × Value)) :
    (ctx.callSection name args).run g ≠ .ok (.error (.unsupported joiner l r), g') := by
  unfold callSection call
  split
  · rename_i schema _
    intro h
    obtain ⟨outcomes, -, hfailed⟩ := Schema.run_apply_eq_iff.1 h
    unfold Schema.conclude at hfailed
    split at hfailed
    · cases hbuild : schema.build (fieldValues outcomes) <;> rw [hbuild] at hfailed <;>
        cases hfailed
    · cases hfailed
  · exact nofun

theorem Context.simpleSection_ne_unsupported (ctx : Context) (name : String)
    (args : List (String × Value)) :
    (ctx.simpleSection name args).run g ≠ .ok (.error (.unsupported joiner l r), g') := by
  intro h
  rcases run_bind_eq_error_iff.1 h with h | ⟨s, between, -, h⟩
  · exact ctx.callSection_ne_unsupported name args h
  · exact s.simplify_ne_unsupported ctx h

namespace Expression.Tree

/-- When the turn comes to a part of an expression that is reduced from `g` on, the generator is in
that state: the left side of a join has its turn before the right one. -/
inductive HasTurn (ctx : Context) (part : Tree) : Tree → Generator → Generator → Prop
  | whole (g : Generator) : HasTurn ctx part part g g
  | left {joiner : Joiner} {leftTree rightTree : Tree} {g turn : Generator}
    (h : HasTurn ctx part leftTree g turn) :
    HasTurn ctx part (join joiner leftTree rightTree) g turn
  | right {joiner : Joiner} {leftTree rightTree : Tree} {s : Section} {g between turn : Generator}
    (hleft : (leftTree.reduce ctx).run g = .ok (.ok s, between))
    (h : HasTurn ctx part rightTree between turn) :
    HasTurn ctx part (join joiner leftTree rightTree) g turn

/-- At its turn, the part comes down to a section. -/
def Succeeds (ctx : Context) (tree : Tree) (g : Generator) (part : Tree) : Prop :=
  ∃ turn s g', HasTurn ctx part tree g turn ∧ (part.reduce ctx).run turn = .ok (.ok s, g')

/-- A join whose sides come down to `left` and `right` at its turn fails with that error, as the
first of the joins of the expression. -/
def FailsFirst (ctx : Context) (joiner : Joiner) (left right : Section) (e : SpecError)
    (tree : Tree) (g : Generator) : Prop :=
  ∃ before leftTree rightTree after turn between g',
    tree.joins = before ++ join joiner leftTree rightTree :: after ∧
    (∀ part ∈ before, tree.Succeeds ctx g part) ∧
    HasTurn ctx (join joiner leftTree rightTree) tree g turn ∧
    (leftTree.reduce ctx).run turn = .ok (.ok left, between) ∧
    (rightTree.reduce ctx).run between = .ok (.ok right, g') ∧
    ((join joiner leftTree rightTree).reduce ctx).run turn = .ok (.error e, g')

variable {tree leftTree rightTree : Tree} {tried : Joiner} {e : SpecError} {between : Generator}

theorem Succeeds.of_left {part : Tree} (h : leftTree.Succeeds ctx g part) (tried : Joiner)
    (rightTree : Tree) : (join tried leftTree rightTree).Succeeds ctx g part := by
  obtain ⟨turn, s, g', hturn, hrun⟩ := h
  exact ⟨turn, s, g', .left hturn, hrun⟩

theorem Succeeds.of_right {part : Tree} (hleft : (leftTree.reduce ctx).run g = .ok (.ok s, between))
    (h : rightTree.Succeeds ctx between part) (tried : Joiner) :
    (join tried leftTree rightTree).Succeeds ctx g part := by
  obtain ⟨turn, s, g', hturn, hrun⟩ := h
  exact ⟨turn, s, g', .right hleft hturn, hrun⟩

/-- No join fails in an expression that comes down to a section. -/
theorem succeeds_of_mem_joins (h : (tree.reduce ctx).run g = .ok (.ok s, g')) :
    ∀ part ∈ tree.joins, tree.Succeeds ctx g part := by
  induction tree generalizing s g g' with
  | call name args span => exact List.forall_mem_nil _
  | join joiner leftTree rightTree ihLeft ihRight =>
    obtain ⟨left, between, right, after, _, hleft, hright, -⟩ := exists_of_run_reduce_join h
    intro part hpart
    rw [joins, List.mem_append, List.mem_append, List.mem_singleton] at hpart
    rcases hpart with (hpart | hpart) | rfl
    · exact (ihLeft hleft part hpart).of_left joiner rightTree
    · exact .of_right hleft (ihRight hright part hpart) joiner
    · exact ⟨g, s, g', .whole g, h⟩

theorem FailsFirst.of_left (h : leftTree.FailsFirst ctx joiner left right e g) (tried : Joiner)
    (rightTree : Tree) : (join tried leftTree rightTree).FailsFirst ctx joiner left right e g := by
  obtain ⟨before, u, v, after, turn, between, g', hjoins, hbefore, hturn, hsides⟩ := h
  refine ⟨before, u, v, after ++ rightTree.joins ++ [join tried leftTree rightTree], turn, between,
    g', ?_, fun part hpart => (hbefore part hpart).of_left tried rightTree, .left hturn, hsides⟩
  simp [joins, hjoins]

theorem FailsFirst.of_right (hleft : (leftTree.reduce ctx).run g = .ok (.ok s, between))
    (h : rightTree.FailsFirst ctx joiner left right e between) (tried : Joiner) :
    (join tried leftTree rightTree).FailsFirst ctx joiner left right e g := by
  obtain ⟨before, u, v, after, turn, later, g', hjoins, hbefore, hturn, hsides⟩ := h
  refine ⟨leftTree.joins ++ before, u, v, after ++ [join tried leftTree rightTree], turn, later, g',
    ?_, ?_, .right hleft hturn, hsides⟩
  · simp [joins, hjoins]
  · refine List.forall_mem_append.2 ⟨fun part hpart => ?_, fun part hpart => ?_⟩
    · exact (succeeds_of_mem_joins hleft part hpart).of_left tried rightTree
    · exact .of_right hleft (hbefore part hpart) tried

theorem failsFirst_self (hleft : (leftTree.reduce ctx).run g = .ok (.ok left, between))
    (hright : (rightTree.reduce ctx).run between = .ok (.ok right, g'))
    (h : ((join joiner leftTree rightTree).reduce ctx).run g = .ok (.error e, g')) :
    (join joiner leftTree rightTree).FailsFirst ctx joiner left right e g := by
  refine ⟨leftTree.joins ++ rightTree.joins, leftTree, rightTree, [], g, between, g', rfl, ?_,
    .whole g, hleft, hright, h⟩
  refine List.forall_mem_append.2 ⟨fun part hpart => ?_, fun part hpart => ?_⟩
  · exact (succeeds_of_mem_joins hleft part hpart).of_left joiner rightTree
  · exact .of_right hleft (succeeds_of_mem_joins hright part hpart) joiner

/-- What two sides come down to can only fail in the join itself, which draws nothing. -/
theorem join_eq_unsupported_of_run {joined : Except SpecError Section}
    (h : (ofExcept joined >>= Section.simplify ctx).run between =
      .ok (.error (.unsupported joiner l r), g')) :
    joined = .error (.unsupported joiner l r) ∧ g' = between := by
  rcases run_bind_eq_error_iff.1 h with h | ⟨s, after, -, h⟩
  · cases h
    exact ⟨rfl, rfl⟩
  · exact absurd h (s.simplify_ne_unsupported ctx)

/-- Induction on the expression. Joins are made on the left first, then on the right, and the join
itself is the last. -/
theorem exists_failsFirst_of_reduce
    (h : (tree.reduce ctx).run g = .ok (.error (.unsupported joiner l r), g')) :
    ∃ left right, tree.FailsFirst ctx joiner left right (.unsupported joiner l r) g ∧
      l = left.kind.told joiner ∧ r = right.kind := by
  induction tree generalizing g with
  | call name args span => exact absurd h (ctx.simpleSection_ne_unsupported name args)
  | join tried leftTree rightTree ihLeft ihRight =>
    have hwhole := h
    rw [reduce_join] at h
    rcases run_bind_eq_error_iff.1 h with hleft | ⟨left, between, hleft, h⟩
    · obtain ⟨left, right, hfails, hkinds⟩ := ihLeft hleft
      exact ⟨left, right, hfails.of_left tried rightTree, hkinds⟩
    rcases run_bind_eq_error_iff.1 h with hright | ⟨right, after, hright, h⟩
    · obtain ⟨_, _, hfails, hkinds⟩ := ihRight hright
      exact ⟨_, _, hfails.of_right hleft tried, hkinds⟩
    · obtain ⟨hjoin, rfl⟩ := join_eq_unsupported_of_run h
      obtain ⟨rfl, hkinds⟩ := Section.join_eq_unsupported hjoin
      exact ⟨left, right, failsFirst_self hleft hright hwhole, hkinds⟩

/-- The error that a pair cannot be joined comes from the first join to fail. It tells the kinds of
the two sides, unless the joiner is `or` and there is a moment on the left. -/
theorem unsupported_tells_kinds_iff {complete : Bool}
    (h : (tree.meaning ctx complete).run g = .ok (.error (.unsupported joiner l r), g')) :
    ∃ left right, tree.FailsFirst ctx joiner left right (.unsupported joiner l r) g ∧
      l = left.kind.told joiner ∧ r = right.kind ∧
      (l = left.kind ↔ ¬ (joiner = .or ∧ left.kind = .moment)) := by
  have hreduce : (tree.reduce ctx).run g = .ok (.error (.unsupported joiner l r), g') := by
    rcases run_bind_eq_error_iff.1 h with h | ⟨s, between, -, h⟩
    · exact h
    · cases complete with
      | true => exact absurd (congrArg Prod.fst (Except.ok.inj h)) s.checkComplete_ne_unsupported
      | false => cases h
  obtain ⟨left, right, hfails, rfl, hright⟩ := exists_failsFirst_of_reduce hreduce
  exact ⟨left, right, hfails, rfl, hright, Section.Kind.told_eq_self_iff⟩

/-- The second of two joins fails. -/
theorem unsupported_tells_kinds_group_and_forever :
    let ctx : Context := { registry := .defaults, now := .midnight 0 (by decide) }
    ∃ tree left right, read "now() | now() & forever()" = .ok tree ∧
      tree.FailsFirst ctx .and left right (.unsupported .and .group .forever) .least ∧
      left.kind = .group ∧ right.kind = .forever := by
  intro ctx
  have hread : read "now() | now() & forever()" = .ok (.join .and
      (.join .or (.call "now" [] ⟨0, 5⟩) (.call "now" [] ⟨8, 13⟩))
      (.call "forever" [] ⟨16, 25⟩)) := by rfl
  have hmeaning : (meaning ctx false (.join .and
      (.join .or (.call "now" [] ⟨0, 5⟩) (.call "now" [] ⟨8, 13⟩))
      (.call "forever" [] ⟨16, 25⟩))).run .least =
        .ok (.error (.unsupported .and .group .forever), .least) := by rfl
  obtain ⟨left, right, hfails, -, hright, hleft⟩ := unsupported_tells_kinds_iff hmeaning
  exact ⟨_, left, right, hread, hfails, (hleft.2 (by simp)).symm, hright.symm⟩

/-- A moment and an end that never comes cannot be alternatives. The error tells a recurrence, and
no join of the expression has one on its left. -/
theorem not_unsupported_tells_kinds_moment_or_forever :
    let ctx : Context := { registry := .defaults, now := .midnight 0 (by decide) }
    ∃ tree, read "date(year: 2000, month: 1, day: 2) & time(hour: 9, minute: 0) | forever()" =
        .ok tree ∧
      (∀ g, (tree.meaning ctx false).run g =
        .ok (.error (.unsupported .or .recurrence .forever), g)) ∧
      ¬ ∃ leftTree rightTree left right, .join .or leftTree rightTree ∈ tree.joins ∧
        (leftTree.reduce ctx).CanReturn left ∧ (rightTree.reduce ctx).CanReturn right ∧
        left.kind = .recurrence ∧ right.kind = .forever := by
  intro ctx
  let moment : Tree := .join .and
    (.call "date" [("day", .integer 2), ("month", .integer 1), ("year", .integer 2000)] ⟨0, 34⟩)
    (.call "time" [("hour", .integer 9), ("minute", .integer 0)] ⟨37, 61⟩)
  have hmoment : ∃ i, moment.reduce ctx = pure (.moment i) := ⟨_, by rfl⟩
  refine ⟨.join .or moment (.call "forever" [] ⟨64, 73⟩), by rfl, fun g => by rfl, ?_⟩
  rintro ⟨leftTree, rightTree, left, right, hmem, hleft, -, hkind, -⟩
  obtain ⟨heq, -⟩ : leftTree = moment ∧ rightTree = .call "forever" [] ⟨64, 73⟩ := by
    simpa [joins, moment] using hmem
  obtain ⟨i, hmoment⟩ := hmoment
  rw [heq, hmoment, canReturn_pure_iff] at hleft
  rw [← hleft] at hkind
  cases hkind

end Expression.Tree

end Almanac

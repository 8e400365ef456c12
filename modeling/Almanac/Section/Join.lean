import Almanac.Error

/-!
Joining two sections. `and` puts intervals and filters on something that starts, and `or` makes
alternatives; each is defined for some pairs of variants only.
-/

namespace Almanac.Section

open Calendar Period Occurrence Expression

/-- A section that names a start, as a recurrence. -/
def recurrence? : Section → Option Recurrence
  | recurrence r => some r
  | moment i => some (.once i)
  | _ => none

def alternatives? : Section → Option (List Interval)
  | interval i => some [i]
  | intervals alternatives => some alternatives
  | _ => none

/-- The error for a pair that a joiner has no rule for. -/
def unsupported (joiner : Joiner) (left right : Section) : Except SpecError Section :=
  .error (.unsupported joiner left.kind right.kind)

def momentAt (d : Date) (c : ClockTime) : Except SpecError Section :=
  match c.timeOfDay? with
  | some t => .ok (.moment (Instant.on d t))
  | none => .error (.badArguments "time" [("hour", .notTimeOfDay c)])

/-- Every member of a group with one more filter. -/
def groupWithFilter (members : List Filtered) (f : Filter) : Section :=
  .group (members.map (·.withFilter f))

/-- Both at once. -/
def and (left right : Section) : Except SpecError Section :=
  match left, right with
  | recurrence r, filter f => .ok (.filtered ⟨r, [f]⟩)
  | recurrence r, interval i => .ok (.recurrence (r.withEvery [i]))
  | recurrence r, intervals is => .ok (.recurrence (r.withEvery is))
  | moment i, filter f => .ok (.filtered ⟨.once i, [f]⟩)
  | moment i, interval e => .ok (.recurrence ((Recurrence.once i).withEvery [e]))
  | moment i, intervals es => .ok (.recurrence ((Recurrence.once i).withEvery es))
  | filter f, moment i => .ok (.filtered ⟨.once i, [f]⟩)
  | filter f, recurrence r => .ok (.group [⟨r, [f]⟩])
  | filter f, filter g => .ok (.filter (f.union g))
  | filter f, group members => .ok (groupWithFilter members f)
  | group members, filter f => .ok (groupWithFilter members f)
  | between start stop, interval i => .ok (.recurrence ⟨start, stop, some [i]⟩)
  | between start stop, intervals is => .ok (.recurrence ⟨start, stop, some is⟩)
  | time c, date d => momentAt d c
  | date d, time c => momentAt d c
  | left, right => unsupported .and left right

/-- What a start and another section make as alternatives: the start alone, or the start with
the intervals or the filter of the other, or the other start. -/
def alternative? (r : Recurrence) (right : Section) : Option Filtered :=
  match right with
  | filter f => some ⟨r, [f]⟩
  | right =>
    match right.alternatives? with
    | some is => some ⟨r.withEvery is, []⟩
    | none => right.recurrence?.map fun other => ⟨other, []⟩

/-- One or the other. A single moment on the left counts as a recurrence, also in the error. -/
def or (left right : Section) : Except SpecError Section :=
  match left, right with
  | group members, group others => .ok (.group (members ++ others))
  | group members, right =>
    match right.recurrence? with
    | some r => .ok (.group (members ++ [⟨r, []⟩]))
    | none => unsupported .or left right
  | left, group members =>
    match left.recurrence? with
    | some r => .ok (.group (⟨r, []⟩ :: members))
    | none => unsupported .or left right
  | left, right =>
    match left.alternatives?, right.alternatives? with
    | some is, some others => .ok (.intervals (is ++ others))
    | _, _ =>
      match left.recurrence? with
      | none => unsupported .or left right
      | some r =>
        match alternative? r right with
        | some s => .ok (.group [⟨r, []⟩, s])
        | none => unsupported .or (.recurrence r) right

def join (joiner : Joiner) (left right : Section) : Except SpecError Section :=
  match joiner with
  | .and => left.and right
  | .or => left.or right

end Almanac.Section

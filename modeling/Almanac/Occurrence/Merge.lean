import Almanac.Calendar.Instant

/-!
Several generators of instants, advanced together in rounds. Each round takes the next instant of
every generator that is still live; the first round whose earliest instant is after a given time
decides. A generator that has no instant left, or shows one after the limit, is dropped for good.
-/

namespace Almanac.Occurrence

open Calendar

/-- The rounds after which a search gives up. -/
def maxRounds : Nat := 100

/-- The earlier of two instants, where none means never. -/
def earlier : Option Instant → Option Instant → Option Instant
  | some a, some b => some (min a b)
  | some a, none => some a
  | none, b => b

/-- The earliest of some instants, where none means never. -/
def earliest (instants : List (Option Instant)) : Option Instant :=
  instants.foldr earlier none

/-- A generator with the number of times that it was asked, and whether it is still live. -/
structure Feed (σ : Type) where
  state : σ
  asked : Nat := 0
  live : Bool := true

variable {σ : Type}

/-- Asks a live generator once. A dropped one is left alone. -/
def Feed.advance (next? : σ → Option (Instant × σ)) (stop : Option Instant) (f : Feed σ) :
    Feed σ × Option Instant :=
  if f.live then
    match next? f.state with
    | some (i, rest) =>
      if stop.any (· < i) then ({ f with state := rest, asked := f.asked + 1, live := false }, none)
      else ({ f with state := rest, asked := f.asked + 1 }, some i)
    | none => ({ f with asked := f.asked + 1, live := false }, none)
  else (f, none)

/-- The outcome of a merge: the instant that decided, and how often each generator was asked. -/
structure Merged where
  found : Option Instant
  asked : List Nat

/-- The number of questions to all generators together. -/
def Merged.pulls (m : Merged) : Nat :=
  m.asked.foldl (· + ·) 0

/-- At most `rounds` rounds. -/
def mergeRounds (next? : σ → Option (Instant × σ)) (time : Instant) (stop : Option Instant) :
    Nat → List (Feed σ) → Merged
  | 0, feeds => ⟨none, feeds.map (·.asked)⟩
  | rounds + 1, feeds =>
    let answers := feeds.map (Feed.advance next? stop)
    let advanced := answers.map (·.1)
    match earliest (answers.map (·.2)) with
    | none => ⟨none, advanced.map (·.asked)⟩
    | some i =>
      if time < i then ⟨some i, advanced.map (·.asked)⟩
      else mergeRounds next? time stop rounds advanced

/-- The first round's earliest instant after `time`, over the given generators. -/
def merge (next? : σ → Option (Instant × σ)) (generators : List σ) (time : Instant)
    (stop : Option Instant) : Merged :=
  mergeRounds next? time stop maxRounds (generators.map fun g => { state := g })

end Almanac.Occurrence

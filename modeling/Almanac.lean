import Almanac.Binary64.Basic
import Almanac.Binary64.Nearest
import Almanac.Binary64.Reading
import Almanac.Binary64.Shortest
import Almanac.Binary64.Value
import Almanac.Calendar.Date
import Almanac.Calendar.Instant
import Almanac.Calendar.Month
import Almanac.Calendar.Month.Lemmas
import Almanac.Calendar.Text
import Almanac.Calendar.TimeOfDay
import Almanac.Calendar.Unit
import Almanac.Calendar.Weekday
import Almanac.Error
import Almanac.Expression.Problem
import Almanac.Expression.Reader
import Almanac.Expression.Tree
import Almanac.Expression.Value
import Almanac.Filter
import Almanac.Keyed
import Almanac.Literal.Basic
import Almanac.Literal.Duration
import Almanac.Literal.Layout
import Almanac.Literal.Reading
import Almanac.Occurrence.Candidates
import Almanac.Occurrence.Merge
import Almanac.Occurrence.Recurrence
import Almanac.Occurrence.Search
import Almanac.Period.Amount
import Almanac.Period.Conversion
import Almanac.Period.Duration
import Almanac.Period.Interval
import Almanac.Period.Range
import Almanac.Period.Step
import Almanac.Proofs.Calendar.Instant
import Almanac.Proofs.Calendar.Month
import Almanac.Proofs.Occurrence.Admitted
import Almanac.Proofs.Occurrence.Answer
import Almanac.Proofs.Occurrence.Candidates
import Almanac.Proofs.Occurrence.First
import Almanac.Proofs.Occurrence.Following
import Almanac.Proofs.Period.Estimate
import Almanac.Proofs.Period.Repetition
import Almanac.Proofs.Section.Admitted
import Almanac.Proofs.Section.Join
import Almanac.Random.ChaCha
import Almanac.Random.Generator
import Almanac.Random.Seeded
import Almanac.Reduction.Argument
import Almanac.Reduction.Context
import Almanac.Reduction.Moment
import Almanac.Reduction.Outcome
import Almanac.Reduction.Reduce
import Almanac.Reduction.Simplify
import Almanac.Registry
import Almanac.Schema.Basic
import Almanac.Schema.Default
import Almanac.Schema.Fields
import Almanac.Section.Basic
import Almanac.Section.Capability
import Almanac.Section.Epoch
import Almanac.Section.Join
import Almanac.Section.Literal
import Almanac.Section.Search
import Almanac.Section.Text
import Almanac.SortedSet
import Almanac.Text.Blank
import Almanac.Text.Numeral
import Almanac.Text.Split
import Almanac.Units
import Almanac.Proofs.Occurrence.Origin
import Almanac.Proofs.Section.Origin
import Almanac.Proofs.Occurrence.Polling
import Almanac.Proofs.Section.Polling
import Almanac.Proofs.Expression.Grammar
import Almanac.Proofs.Expression.Reading
import Almanac.Proofs.Expression.Progress
import Almanac.Proofs.Expression.Written
import Almanac.Proofs.Reduction.Run
import Almanac.Proofs.Reduction.Simple
import Almanac.Proofs.Reduction.BreakOff
import Almanac.Proofs.Reduction.Repetition
import Almanac.Proofs.Schema.Default
import Almanac.Proofs.Reduction.Argument
import Almanac.Proofs.Literal.Layout
import Almanac.Proofs.Reduction.NormalForm
import Almanac.Proofs.Literal.Digits
import Almanac.Proofs.Reduction.Literal
import Almanac.Proofs.Filter
import Almanac.Proofs.Occurrence.Intervals
import Almanac.Proofs.Section.Intervals
import Almanac.Proofs.Section.Regrouping
import Almanac.Proofs.Reduction.Join
import Almanac.Proofs.Reduction.Distribution
import Almanac.Proofs.Reduction.Complete
import Almanac.Proofs.Occurrence.Ending
import Almanac.Proofs.Expression.Calls
import Almanac.Proofs.Schema.Build
import Almanac.Proofs.Reduction.Call
import Almanac.Proofs.Reduction.Clock
import Almanac.Proofs.Reduction.Registry
import Almanac.Proofs.Reduction.Entry
import Almanac.Proofs.Binary64.Rounding
import Almanac.Proofs.Literal.Duration
import Almanac.Proofs.Period.Conversion
import Almanac.Proofs.Reduction.Legible
import Almanac.Proofs.Reduction.Listing
import Almanac.Proofs.Reduction.Shown
import Almanac.Proofs.Reduction.ReadBack
import Almanac.Proofs.Reduction.Unsupported
import Almanac.Proofs.Reduction.Moments
import Almanac.Proofs.Period.Limits
import Almanac.Proofs.Occurrence.Rounds
import Almanac.Proofs.Literal.Components
import Almanac.Proofs.Expression.Places
import Almanac.Proofs.Expression.Completion
import Almanac.Proofs.Expression.Marks
import Almanac.Proofs.Expression.Viable
import Almanac.Proofs.Expression.Respaced
import Almanac.Proofs.Reduction.Items
import Almanac.Proofs.Reduction.Problems
import Almanac.Proofs.Reduction.Accepted
import Almanac.Proofs.Reduction.Built
import Almanac.Proofs.Literal.Written
import Almanac.Proofs.Loop
import Almanac.Proofs.Period.Order
import Almanac.Proofs.Period.WholeUnits
import Almanac.Proofs.Occurrence.Jump
import Almanac.Proofs.Reduction.Weekdays

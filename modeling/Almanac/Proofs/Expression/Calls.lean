import Almanac.Proofs.Expression.Grammar
import Almanac.Proofs.Keyed

/-!
The calls of an expression, nested ones included. Each call that stands in what has been read is
spelled somewhere in the text.
-/

namespace Almanac.Expression

/-- A call as its name and its arguments. -/
abbrev Call := String × List (String × Value)

mutual

/-- The calls that a value consists of: the outermost and all that are nested in it. -/
def Value.calls : Value → List Call
  | .call name args => (name, args) :: callsOfArguments args
  | _ => []

def callsOfArguments : List (String × Value) → List Call
  | [] => []
  | argument :: rest => callsOfArgument argument ++ callsOfArguments rest

def callsOfArgument : String × Value → List Call
  | (_, value) => value.calls

end

def Tree.calls : Tree → List Call
  | .call name args _ => (name, args) :: callsOfArguments args
  | .join _ left right => left.calls ++ right.calls

def Phrase.calls : Phrase → List Call
  | .call name args => (name, args) :: callsOfArguments args
  | .arguments args => callsOfArguments args
  | .argument _ v => v.calls
  | .value v => v.calls
  | .term _ tree => tree.calls
  | .chain _ tree => tree.calls

theorem callsOfArguments_eq_flatMap (args : List (String × Value)) :
    callsOfArguments args = args.flatMap fun argument => argument.2.calls := by
  induction args with
  | nil => rfl
  | cons argument rest ih => rw [callsOfArguments, ih, List.flatMap_cons, callsOfArgument]

theorem mem_callsOfArguments {args : List (String × Value)} {call : Call} :
    call ∈ callsOfArguments args ↔ ∃ argument ∈ args, call ∈ argument.2.calls := by
  rw [callsOfArguments_eq_flatMap, List.mem_flatMap]

theorem callsOfArguments_append (args more : List (String × Value)) :
    callsOfArguments (args ++ more) = callsOfArguments args ++ callsOfArguments more := by
  simp only [callsOfArguments_eq_flatMap, List.flatMap_append]

theorem callsOfArguments_singleton (key : String) (v : Value) :
    callsOfArguments [(key, v)] = v.calls := by
  rw [callsOfArguments_eq_flatMap, List.flatMap_singleton]

/-- Filing the arguments of a call moves its nested calls only. -/
theorem mem_callsOfArguments_ofList {args : List (String × Value)}
    (hdistinct : (args.map Prod.fst).Nodup) {call : Call} :
    call ∈ callsOfArguments (Keyed.ofList args) ↔ call ∈ callsOfArguments args := by
  simp only [mem_callsOfArguments, Keyed.mem_ofList_iff hdistinct]

theorem calls_ofToken (token : List Char) : (Value.ofToken token).calls = [] := by
  unfold Value.ofToken
  split
  · rfl
  · split
    · rfl
    · split
      · rfl
      · split <;> rfl

/-- A call in a phrase is spelled by a part of what spells the phrase. -/
theorem exists_spells_of_mem_calls {w : List Char} {phrase : Phrase} (h : Spells w phrase)
    {call : Call} (hcall : call ∈ phrase.calls) : ∃ u, Spells u (.call call.1 call.2) := by
  induction h with
  | emptyCall hname hbefore hinside =>
    rw [List.mem_singleton.1 hcall]
    exact ⟨_, .emptyCall hname hbefore hinside⟩
  | call hname hbefore hfirst hargs hlast hdistinct ih =>
    rcases List.mem_cons.1 hcall with rfl | hnested
    · exact ⟨_, .call hname hbefore hfirst hargs hlast hdistinct⟩
    · exact ih ((mem_callsOfArguments_ofList hdistinct).1 hnested)
  | firstArgument h ih =>
    rw [Phrase.calls, callsOfArguments_singleton] at hcall
    exact ih hcall
  | furtherArgument hargs hbefore hafter h ihargs ih =>
    rw [Phrase.calls, callsOfArguments_append, callsOfArguments_singleton] at hcall
    rcases List.mem_append.1 hcall with hcall | hcall
    · exact ihargs hcall
    · exact ih hcall
  | token hrun hsome =>
    rw [Phrase.calls, calls_ofToken] at hcall
    cases hcall
  | join hleft hbefore hafter hright ihleft ihright =>
    rcases List.mem_append.1 hcall with hcall | hcall
    · exact ihleft hcall
    · exact ihright hcall
  | argument _ _ _ _ ih | nested _ ih | term _ ih | parentheses _ _ _ ih | single _ ih =>
    exact ih hcall

end Almanac.Expression

import ColoredCtl.Check.Context

/-!
Names for states.

Each operator here evaluates a formula for several states under a name. All workers go through the
same states in the same order, since every evaluation has rounds of its own.
-/

namespace ColoredCtl

open Color

namespace FirstOrder

variable {C : Type}

/-- The value of a map at a state, if the worker owns the state and the value is not empty. -/
def ownValue? (ctx : Context C) (state : Nat) (m : StateMap C) : Except Misuse (Option C) := do
  if ctx.partition.isLocal state then
    match ← m.get? ctx.algebra state with
    | none => return none
    | some value => ctx.algebra.nonempty? value
  else return none

/-- At each state, the value there of the formula with the name standing for that state. -/
def bind (ctx : Context C) (eval : Nat → Worker C (StateMap C)) : Worker C (StateMap C) := do
  let entries ← (List.range ctx.stateCount).filterMapM fun state => do
    let m ← eval state
    let value ← ownValue? ctx state m
    return value.map (state, ·)
  return .ofEntries entries ctx.stateCount

/-- At each state, the value of a map at one state. -/
def jump (ctx : Context C) (state : Nat) (m : StateMap C) : Worker C (StateMap C) := do
  let value ← ownValue? ctx state m
  let all ← ctx.broadcast (value.map (state, ·)).toList
  match all.lookup state with
  | some value => return .constant ctx.localSet value
  | none => return .empty ctx.stateCount

/-- The states of a map with their colors, as all workers together know them. -/
def substitutions (ctx : Context C) (bound : StateMap C) : Worker C (Packet C) := do
  let all ← ctx.broadcast (← bound.entries ctx.algebra)
  return all.mergeSort fun a b => a.1 ≤ b.1

/-- Takes from the colors of each state those that are legal for a substitution and for which the
formula does not hold under it. States without colors are dropped. -/
def restrict (ctx : Context C) (legal : C) (m : StateMap C) (colors : Packet C) :
    Except Misuse (Packet C) :=
  colors.filterMapM fun (state, value) => do
    let violated ←
      match ← m.get? ctx.algebra state with
      | some holds => ctx.algebra.diff legal holds
      | none => pure legal
    let left ← ctx.algebra.diff value violated
    return (← ctx.algebra.nonempty? left).map (state, ·)

/-- The colors for which the formula holds for every state of the bound. -/
def forAll (ctx : Context C) (bound : StateMap C) (eval : Nat → Worker C (StateMap C)) :
    Worker C (StateMap C) := do
  let values ← substitutions ctx bound
  let start := ctx.partition.localStates.map (·, ctx.algebra.full.get)
  let colors ← values.foldlM
    (fun colors (state, legal) => do
      let m ← eval state
      let rest ← restrict ctx legal m colors
      return rest)
    start
  return .ofEntries colors ctx.stateCount

/-- Adds the colors that are legal for a substitution and for which the formula holds under it. -/
def collect (ctx : Context C) (legal : C) (m : StateMap C) (acc : Accumulator C) :
    Attempt (Accumulator C) :=
  m.foldEntries ctx.algebra
    (fun acc (state, holds) => do
      let colors ← ctx.algebra.inter legal holds
      return (← Attempt.ofMap (acc.add ctx.algebra state colors)).2)
    acc

/-- The colors for which the formula holds for some state of the bound. -/
def forSome (ctx : Context C) (bound : StateMap C) (eval : Nat → Worker C (StateMap C)) :
    Worker C (StateMap C) := do
  let values ← substitutions ctx bound
  let start ← ctx.newResult
  let acc ← values.foldlM
    (fun acc (state, legal) => do
      let m ← eval state
      let acc ← collect ctx legal m acc
      return acc)
    start
  return acc.freeze

end FirstOrder

end ColoredCtl

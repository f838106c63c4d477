import ColoredCtl.Check.Context

/-!
One step: the colors for which some transition, or every transition and at least one, leads to a
state where a map has them.

Values travel against the transitions, to the owners of the states they lead from. For "every
transition" the owners also need to know the values at the far ends; these are sent to them first.
-/

namespace ColoredCtl

open Color

namespace Next

variable {C : Type}

/-- What a value at a state means for the states that lead to it. -/
def contributionsFrom (ctx : Context C) (course : Course) (state : Nat) (value : C) :
    Except Misuse (Packet C) :=
  (course.predecessors ctx.model state).filterMapM fun t => do
    let colors ← ctx.algebra.inter value t.bound
    if ← ctx.algebra.maybeNonempty colors then return some (t.target, colors) else return none

/-- What the values of a map mean for the states that lead to them. -/
def contributions (ctx : Context C) (course : Course) (phi : StateMap C) :
    Except Misuse (Packet C) := do
  let parts ← (← phi.states).mapM fun state => do
    match ← phi.get? ctx.algebra state with
    | none => return []
    | some value => contributionsFrom ctx course state value
  return parts.flatten

/-- The colors for which some transition leads to the map. -/
def someStep (ctx : Context C) (course : Course) (phi : StateMap C) : Worker C (StateMap C) := do
  let contributions ← contributions ctx course phi
  let start ← Scatter.new ctx
  let scattered ← Attempt.ofMap (contributions.foldlM (Scatter.add ctx) start)
  let received ← Worker.exchange scattered.staging.outgoing
  let own ← Attempt.ofMap (scattered.own.addAll ctx.algebra (received.getD []))
  return own.freeze

/-- Stages the values of a map for the other workers that own states leading to them. -/
def stageWitnesses (ctx : Context C) (course : Course) (phi : StateMap C) :
    Except (Failure MapError) (Staging C) :=
  phi.foldEntries ctx.algebra
    (fun staging (state, value) =>
      (course.predecessors ctx.model state).foldlM
        (fun staging t => do
          let owner := ctx.partition.owner t.target
          if owner = ctx.id then return staging
          else staging.push ctx.algebra owner state value)
        staging)
    (.new ctx)

/-- Takes from a value the colors for which one of the transitions leads out of the map. Gives
nothing when nothing is left. -/
def decide? (ctx : Context C) (target? : Nat → Except Misuse (Option C)) :
    List (Transition C) → C → Except Misuse (Option C)
  | [], value => ctx.algebra.nonempty? value
  | t :: rest, value => do
    let falsified ←
      match ← target? t.target with
      | some good => ctx.algebra.diff t.bound good
      | none => pure t.bound
    let value ← ctx.algebra.diff value falsified
    if ← ctx.algebra.maybeNonempty value then decide? ctx target? rest value else return none

/-- The colors for which there is a transition and every transition leads to the map. -/
def everyStep (ctx : Context C) (course : Course) (phi : StateMap C) : Worker C (StateMap C) := do
  let staging ← Attempt.ofMap (stageWitnesses ctx course phi)
  let received ← Worker.exchange staging.outgoing
  let witnesses := StateMap.ofEntries (received.getD []) ctx.stateCount
  let candidates ← someStep ctx course phi
  let target? (state : Nat) :=
    if ctx.partition.isLocal state then phi.get? ctx.algebra state
    else witnesses.get? ctx.algebra state
  let decided ← (← candidates.states).filterMapM fun state => do
    match ← candidates.get? ctx.algebra state with
    | none => return none
    | some value =>
      let left ← decide? ctx target? (course.successors ctx.model state) value
      return left.map (state, ·)
  let result ← ctx.newResult
  let own ← Attempt.ofMap (result.addAll ctx.algebra decided)
  return own.freeze

end Next

end ColoredCtl

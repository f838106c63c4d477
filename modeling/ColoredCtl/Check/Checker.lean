import ColoredCtl.Check.Config
import ColoredCtl.Check.Evaluate
import ColoredCtl.Check.Validate

namespace ColoredCtl

open Color

/-- A model with what is needed to check formulas on it. -/
structure Checker (C : Type) where
  algebra : Algebra C
  model : Model C
  config : Config

namespace Checker

variable {C : Type}

/-- What connects the workers. -/
def medium (c : Checker C) : Medium C :=
  if c.config.partitions = 1 then .solo
  else
    match c.config.transport with
    | .shared => .shared c.config.partitions
    | .serialized => .framed (List.replicate c.config.partitions c.algebra)

/-- The worker of a partition: it checks the formulas one after the other. -/
def worker (c : Checker C) (formulas : List Formula) (p : Partition) :
    Worker C (List (StateMap C)) := do
  let ctx ← Context.make c.algebra c.model p
  formulas.mapM ctx.check

/-- A misuse ends the worker of the partition. -/
def report {α : Type} (id : Nat) : Attempt α → Except CheckError α
  | .ok a => .ok a
  | .error (.misuse _) => .error (.workerCrashed id)
  | .error (.error cause) => .error cause

/-- All results, or the first failure in the order of the partitions. A worker that was only told
that the exchange was aborted does not count as failed when there is another one that did. -/
def firstFailure {α : Type} (outcomes : List (Except CheckError α)) : Except CheckError (List α) :=
  let real := outcomes.find? fun outcome =>
    match outcome with
    | .ok _ | .error (.channel .aborted) => false
    | .error _ => true
  match real with
  | some (.error cause) => .error cause
  | _ => outcomes.mapM id

/-- The results of several formulas: for each formula, one map for each partition. -/
def verifyAll (c : Checker C) (formulas : List Formula) :
    Except (Failure CheckError) (List (List (StateMap C))) := do
  Failure.lift (formulas.forM fun f => f.validate c.model [])
  if c.config.partitions = 0 then throw (.error (.partition .noPartitions))
  let partitions ←
    (Partition.all c.config.strategy c.config.partitions c.model.stateCount).mapError
      (Failure.map .partition)
  let channel ← Channel.new c.medium
  let outcomes := Crew.run channel.medium (partitions.map (c.worker formulas))
  let results ← Failure.lift (firstFailure (outcomes.zipIdx.map fun (x, id) => report id x))
  return (List.range formulas.length).map fun i => results.filterMap (·[i]?)

/-- The result of a formula: one map for each partition. -/
def verify (c : Checker C) (f : Formula) : Except (Failure CheckError) (List (StateMap C)) := do
  return (← c.verifyAll [f]).headD []

/-- The result of a formula in one map. -/
def verifyMerged (c : Checker C) (f : Formula) : Except (Failure CheckError) (StateMap C) := do
  StateMap.merge c.algebra (← c.verify f) c.model.stateCount

end Checker

end ColoredCtl

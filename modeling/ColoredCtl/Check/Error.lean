import ColoredCtl.Channel.Frame
import ColoredCtl.Model.Basic
import ColoredCtl.Partition.Basic

namespace ColoredCtl

inductive CheckError where
  | unboundVariable (name : String)
  | unknownAtom (atom : Atom) (cause : ModelError)
  | workerCrashed (id : Nat)
  | model (cause : ModelError)
  | partition (cause : PartitionError)
  | channel (cause : ChannelError)
  | map (cause : MapError)
  /-- A fixed point was not reached within the number of steps that suffice for it. -/
  | unsettled
deriving DecidableEq, Repr

def CheckError.message : CheckError → String
  | .unboundVariable name => s!"variable '{name}' is not bound"
  | .unknownAtom atom cause => "unknown atom [" ++ atom.text ++ "]: " ++ cause.message
  | .workerCrashed id => s!"worker of partition {id} panicked"
  | .model cause => "model error: " ++ cause.message
  | .partition cause => "partition error: " ++ cause.message
  | .channel cause => "channel error: " ++ cause.message
  | .map cause => "state map error: " ++ cause.message
  | .unsettled => "fixed point not reached"

/-- A computation of one worker, without exchange. -/
abbrev Attempt := Except (Failure CheckError)

namespace Attempt

variable {α : Type}

/-- Errors of maps as errors of the check. -/
def ofMap (x : Except (Failure MapError) α) : Attempt α := x.mapError (Failure.map .map)

/-- Errors of models as errors of the check. -/
def ofModel (x : Except (Failure ModelError) α) : Attempt α := x.mapError (Failure.map .model)

end Attempt

end ColoredCtl

import ColoredCtl.Model.Atom
import ColoredCtl.State.StateMap

/-!
Transition systems with parameters, as the checker sees them.

A transition exists for the colors in its bound. Transitions can be followed in both directions of
time: with `forward = false`, successors are the sources of the transitions into a state.
-/

namespace ColoredCtl

open Color

inductive ModelError where
  | unknownVariable (name : String)
  | unknownDirection (name : String)
  | stateOutOfRange (state stateCount : Nat)
  | valueCount (name : String) (expected found : Nat)
deriving DecidableEq, Repr

def ModelError.message : ModelError → String
  | .unknownVariable name => s!"unknown variable '{name}'"
  | .unknownDirection name => s!"unknown direction '{name}'"
  | .stateOutOfRange state stateCount =>
    s!"state {state} outside of state space of {stateCount} states"
  | .valueCount name expected found =>
    s!"variable '{name}' has {found} values, expected {expected}"

/-- A transition, seen from one of its ends. The label is the same from both. -/
structure Transition (C : Type) where
  target : Nat
  label : Label
  bound : C
deriving DecidableEq

/-- A transition system. -/
structure Model (C : Type) where
  stateCount : Nat
  /-- The transitions out of a state, or into it when time runs backward. -/
  successors : (state : Nat) → (forward : Bool) → List (Transition C)
  /-- The colors for which an atom holds, at each state. -/
  evalAtom : Atom → Except (Failure ModelError) (StateMap C)
  /-- Refuses the atoms that cannot be evaluated. -/
  checkAtom : Atom → Except ModelError Unit

namespace Model

variable {C : Type}

/-- The transitions into a state, or out of it when time runs backward. -/
def predecessors (M : Model C) (state : Nat) (forward : Bool) : List (Transition C) :=
  M.successors state (!forward)

end Model

end ColoredCtl

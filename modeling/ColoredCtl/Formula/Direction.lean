import ColoredCtl.Model.Basic

namespace ColoredCtl

/-- A property of labels. -/
inductive Direction where
  | top
  | bottom
  /-- Self-loops. -/
  | loop
  /-- Moves along a dimension, in one orientation or in both. -/
  | along (name : String) (facet : Option Facet)
  | not (inner : Direction)
  | and (left right : Direction)
  | or (left right : Direction)
deriving DecidableEq, Repr, Hashable

namespace Direction

/-- Whether a label has the property. -/
def accepts : Direction → Label → Bool
  | .top, _ => true
  | .bottom, _ => false
  | .loop, label => label == .loop
  | .along _ _, .loop => false
  | .along name facet, .move dimension orientation =>
    dimension == name && facet.all (· == orientation)
  | .not inner, label => !inner.accepts label
  | .and left right, label => left.accepts label && right.accepts label
  | .or left right, label => left.accepts label || right.accepts label

def text : Direction → String
  | .top => "true"
  | .bottom => "false"
  | .loop => "loop"
  | .along name facet => name ++ (facet.map Facet.sign).getD ""
  | .not inner => "!" ++ inner.text
  | .and left right => "(" ++ left.text ++ " && " ++ right.text ++ ")"
  | .or left right => "(" ++ left.text ++ " || " ++ right.text ++ ")"

end Direction

/-- How a temporal operator moves: along which transitions, and in which direction of time. -/
structure Course where
  direction : Direction := .top
  forward : Bool := true
deriving DecidableEq, Repr, Hashable

namespace Course

/-- Text of what is not the default. -/
def text (c : Course) : String :=
  (if c.direction = .top then "" else "\x7b" ++ c.direction.text ++ "\x7d") ++
    (if c.forward then "" else "<-")

variable {C : Type}

/-- The transitions that lead on from a state. -/
def successors (c : Course) (M : Model C) (state : Nat) : List (Transition C) :=
  (M.successors state c.forward).filter fun t => c.direction.accepts t.label

/-- The transitions that lead to a state. -/
def predecessors (c : Course) (M : Model C) (state : Nat) : List (Transition C) :=
  (M.predecessors state c.forward).filter fun t => c.direction.accepts t.label

end Course

end ColoredCtl

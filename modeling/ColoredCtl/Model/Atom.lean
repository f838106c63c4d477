import ColoredCtl.Model.Label
import ColoredCtl.Number.Decimal

namespace ColoredCtl

/-- A comparison of two numbers. -/
inductive Comparison where
  | lt
  | le
  | gt
  | ge
  | eq
  | ne
deriving DecidableEq, Repr, Hashable

namespace Comparison

/-- All comparisons, in the order in which they are listed for the user. -/
def all : List Comparison := [.lt, .le, .gt, .ge, .eq, .ne]

/-- Whether the comparison holds of two numbers. A NaN is different from everything, and in no
other relation to anything. -/
def holds (c : Comparison) (x y : Binary64) : Bool :=
  match c with
  | .lt => x.lt y
  | .le => x.le y
  | .gt => y.lt x
  | .ge => y.le x
  | .eq => x.same y
  | .ne => !x.same y

def text : Comparison → String
  | .lt => "Lt"
  | .le => "Le"
  | .gt => "Gt"
  | .ge => "Ge"
  | .eq => "Eq"
  | .ne => "Ne"

end Comparison

/-- Whether moves into a state or out of it are meant. -/
inductive Flow where
  | into
  | out
deriving DecidableEq, Repr, Hashable

def Flow.text : Flow → String
  | .into => "in"
  | .out => "out"

/-- An atomic proposition. Thresholds are told apart by their bits. -/
inductive Atom where
  /-- The value of the variable compares to the threshold. -/
  | float (name : String) (comparison : Comparison) (threshold : Binary64)
  /-- There is a move along the dimension into the state or out of it. -/
  | transition (name : String) (flow : Flow) (facet : Facet)
deriving DecidableEq, Repr, Hashable

def Atom.text : Atom → String
  | .float name comparison threshold => name ++ " " ++ comparison.text ++ " " ++ threshold.text
  | .transition name flow facet => name ++ ":" ++ flow.text ++ facet.sign

end ColoredCtl

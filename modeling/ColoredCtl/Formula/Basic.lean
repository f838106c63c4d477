import ColoredCtl.Formula.Direction

/-!
Formulas of computation tree logic with state variables.

Temporal operators are restricted to a `Course`. The first-order part names states: `bind` names the
state a formula is looked at, `jump` goes to a named state, and the quantifiers let a name range over
the states where a bound holds.
-/

namespace ColoredCtl

/-- Whether some path or all paths are meant. -/
inductive PathQuantifier where
  | some
  | all
deriving DecidableEq, Repr, Hashable

def PathQuantifier.text : PathQuantifier → String
  | .some => "E"
  | .all => "A"

inductive Formula where
  | top
  | bottom
  | atom (a : Atom)
  /-- Holds in the named state only. -/
  | reference (name : String)
  | not (inner : Formula)
  | and (left right : Formula)
  | or (left right : Formula)
  | implies (left right : Formula)
  | equal (left right : Formula)
  /-- After one step. -/
  | next (quantifier : PathQuantifier) (course : Course) (inner : Formula)
  /-- `path` holds until `reach` does. The weak form is also content with a path that ends before
  `reach` holds. -/
  | hold (quantifier : PathQuantifier) (weak : Bool) (course : Course) (path reach : Formula)
  /-- The inner formula with the name standing for the state it is looked at. -/
  | bind (name : String) (inner : Formula)
  /-- The inner formula in the named state. -/
  | jump (name : String) (inner : Formula)
  /-- The inner formula for every state of the bound under the name. -/
  | forAll (name : String) (bound inner : Formula)
  /-- The inner formula for some state of the bound under the name. -/
  | forSome (name : String) (bound inner : Formula)
deriving DecidableEq, Repr, Hashable

namespace Formula

/-- Some path reaches the inner formula. -/
def someFinally (course : Course) (inner : Formula) : Formula :=
  .hold .some false course .top inner

/-- Every path reaches the inner formula. -/
def allFinally (course : Course) (inner : Formula) : Formula :=
  .hold .all false course .top inner

/-- Some path never leaves the inner formula. -/
def someGlobally (course : Course) (inner : Formula) : Formula :=
  .not (allFinally course (.not inner))

/-- No path leaves the inner formula. -/
def allGlobally (course : Course) (inner : Formula) : Formula :=
  .not (someFinally course (.not inner))

def text : Formula → String
  | .top => "true"
  | .bottom => "false"
  | .atom a => "[" ++ a.text ++ "]"
  | .reference name => name
  | .not inner => "!" ++ inner.text
  | .and left right => "(" ++ left.text ++ " && " ++ right.text ++ ")"
  | .or left right => "(" ++ left.text ++ " || " ++ right.text ++ ")"
  | .implies left right => "(" ++ left.text ++ " -> " ++ right.text ++ ")"
  | .equal left right => "(" ++ left.text ++ " <-> " ++ right.text ++ ")"
  | .next quantifier course inner => quantifier.text ++ "X" ++ course.text ++ " " ++ inner.text
  | .hold quantifier weak course path reach =>
    quantifier.text ++ "[" ++ path.text ++ (if weak then " W" else " U") ++ course.text ++ " " ++
      reach.text ++ "]"
  | .bind name inner => "(bind " ++ name ++ ": " ++ inner.text ++ ")"
  | .jump name inner => "(at " ++ name ++ ": " ++ inner.text ++ ")"
  | .forAll name bound inner =>
    "(forall " ++ name ++ " in " ++ bound.text ++ ": " ++ inner.text ++ ")"
  | .forSome name bound inner =>
    "(exists " ++ name ++ " in " ++ bound.text ++ ": " ++ inner.text ++ ")"

end Formula

end ColoredCtl

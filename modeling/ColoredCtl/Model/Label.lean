namespace ColoredCtl

/-- The orientation of a move along a dimension. -/
inductive Facet where
  | up
  | down
deriving DecidableEq, Repr, Hashable

def Facet.sign : Facet → String
  | .up => "+"
  | .down => "-"

/-- What a transition does to the state. -/
inductive Label where
  /-- It stays in its state. -/
  | loop
  /-- It moves along a dimension. -/
  | move (name : String) (facet : Facet)
deriving DecidableEq, Repr

def Label.text : Label → String
  | .loop => "loop"
  | .move name facet => name ++ facet.sign

end ColoredCtl

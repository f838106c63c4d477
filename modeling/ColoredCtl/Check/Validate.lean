import ColoredCtl.Check.Error
import ColoredCtl.Formula.Basic

namespace ColoredCtl

variable {C : Type}

/-- Refuses a name that is not in scope. -/
def checkBound (scope : List String) (name : String) : Except CheckError Unit :=
  if scope.contains name then .ok () else .error (.unboundVariable name)

/-- Refuses a formula with a name that stands for nothing, or with an atom that the model does not
know. The first such place counts, from left to right. The bound of a quantifier is outside of the
scope of its name. -/
def Formula.validate (M : Model C) : Formula → (scope : List String) → Except CheckError Unit
  | .top, _ | .bottom, _ => .ok ()
  | .atom a, _ => (M.checkAtom a).mapError (.unknownAtom a)
  | .reference name, scope => checkBound scope name
  | .not f, scope | .next _ _ f, scope => f.validate M scope
  | .and f g, scope | .or f g, scope | .implies f g, scope | .equal f g, scope
  | .hold _ _ _ f g, scope => do
    f.validate M scope
    g.validate M scope
  | .bind name f, scope => f.validate M (name :: scope)
  | .jump name f, scope => do
    checkBound scope name
    f.validate M scope
  | .forAll name bound f, scope | .forSome name bound f, scope => do
    bound.validate M scope
    f.validate M (name :: scope)

end ColoredCtl

import ColoredCtl.Color.Algebra

/-!
Counting the operations of an algebra.

`Algebra.metered` runs the operations of an algebra and counts each of them before it is attempted,
so an operation that fails is counted too.
-/

namespace ColoredCtl.Color

/-- Numbers of operations, by kind. -/
structure Tally where
  inters : Nat := 0
  unions : Nat := 0
  compls : Nat := 0
  tests : Nat := 0
deriving DecidableEq, Repr

namespace Tally

def total (t : Tally) : Nat := t.inters + t.unions + t.compls + t.tests

def add (t s : Tally) : Tally :=
  ⟨t.inters + s.inters, t.unions + s.unions, t.compls + s.compls, t.tests + s.tests⟩

/-- What was counted after the earlier tally; never below zero. -/
def since (t earlier : Tally) : Tally :=
  ⟨t.inters - earlier.inters, t.unions - earlier.unions, t.compls - earlier.compls,
    t.tests - earlier.tests⟩

end Tally

/-- What one difference counts as: an intersection, with a complement where there is no operation
of its own for it. -/
def Domain.diffTally : Domain → Tally
  | .truth => { inters := 1, compls := 1 }
  | .explicit _ => { inters := 1 }

/-- Computations that count operations and may be misused. -/
abbrev Metered := ExceptT Misuse (StateM Tally)

/-- Counts, then attempts. -/
def Metered.attempt {α : Type} (cost : Tally) (x : Except Misuse α) : Metered α := do
  modify (·.add cost)
  match x with
  | .ok a => return a
  | .error cause => throw cause

/-- The operations of an algebra, counted. -/
def Algebra.metered {C : Type} (A : Algebra C) : Operations Metered C where
  inter a b := Metered.attempt { inters := 1 } (A.inter a b)
  union a b := Metered.attempt { unions := 1 } (A.union a b)
  compl a := Metered.attempt { compls := 1 } (A.compl a)
  diff a b := Metered.attempt A.domain.diffTally (A.diff a b)
  nonempty a := Metered.attempt { tests := 1 } (A.nonempty a)

end ColoredCtl.Color

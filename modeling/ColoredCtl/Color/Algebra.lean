import ColoredCtl.Failure
import ColoredCtl.Wire

/-!
Color algebras: sets of parameter valuations, and what can be done with them.

`Operations m C` are the set operations on values of type `C` in a monad `m`. The combinations that
the rest of the library uses (`grow?`, `unionOpt`, …) are defined once, for every such monad: in
`Except Misuse` they compute, and in a counting monad they also count. `Algebra C` adds constants,
texts, the byte encoding and the description of the domain.
-/

namespace ColoredCtl.Color

/-- What the colors range over. -/
inductive Domain where
  /-- One valuation: a color is a truth value. -/
  | truth
  /-- The valuations `0, …, valuations - 1`. -/
  | explicit (valuations : Nat)
deriving DecidableEq, Repr

namespace Domain

def text : Domain → String
  | .truth => "bool"
  | .explicit valuations => s!"explicit({valuations})"

/-- The number of bytes of a slot that may have a value. -/
def slotBytes : Domain → Nat
  | .truth => 1
  | .explicit _ => 16

/-- The number of bytes of a state with a value. -/
def entryBytes : Domain → Nat
  | .truth => 16
  | .explicit _ => 24

end Domain

/-- Why a byte string is not the encoding of a color. -/
inductive DecodeError where
  | truncated (cause : Wire.Truncated)
  | colorByte (found : Int)
  | wordCount (expected : Nat) (found : Int)
  | outsideDomain (valuations : Nat)
deriving DecidableEq, Repr

def DecodeError.message : DecodeError → String
  | .truncated cause => cause.message
  | .colorByte found => s!"invalid bool color byte {found}"
  | .wordCount expected found => s!"expected {expected} color words, found {found}"
  | .outsideDomain valuations => s!"color outside of explicit domain of {valuations} valuations"

inductive AlgebraError where
  | decode (cause : DecodeError)
  | domainMismatch (source target : Domain)
deriving DecidableEq, Repr

def AlgebraError.message : AlgebraError → String
  | .decode cause => "cannot decode colors: " ++ cause.message
  | .domainMismatch source target =>
    s!"domain mismatch: {source.text} cannot be transferred to {target.text}"

/-- The set operations of an algebra, in a monad that carries their failures. -/
structure Operations (m : Type → Type) (C : Type) where
  inter : C → C → m C
  union : C → C → m C
  /-- Complement in the domain. -/
  compl : C → m C
  /-- What of the first set is not in the second. -/
  diff : C → C → m C
  /-- Exact test whether a color is in the set. -/
  nonempty : C → m Bool

namespace Operations

variable {m : Type → Type} [Monad m] {C : Type}

def isEmpty (ops : Operations m C) (a : C) : m Bool := do
  return !(← ops.nonempty a)

/-- Quick test that may only err towards "yes"; here it is exact. -/
def maybeNonempty (ops : Operations m C) (a : C) : m Bool := ops.nonempty a

/-- Quick test that may only err towards "yes"; here it is exact. -/
def maybeEmpty (ops : Operations m C) (a : C) : m Bool := ops.isEmpty a

/-- The union of a current value and a new one, or nothing when the union is not larger. A missing
current value is the empty set. -/
def grow? (ops : Operations m C) (current : Option C) (new : C) : m (Option C) := do
  match current with
  | none => if ← ops.nonempty new then return some new else return none
  | some current =>
    let gained ← ops.diff new current
    if ← ops.maybeNonempty gained then
      if ← ops.nonempty gained then return some (← ops.union current new) else return none
    else return none

/-- Union of optional values, where a missing one is the empty set. -/
def unionOpt (ops : Operations m C) : Option C → Option C → m (Option C)
  | some a, some b => do return some (← ops.union a b)
  | some a, none => return some a
  | none, b => return b

/-- Intersection of optional values, where a missing one is the empty set. -/
def interOpt (ops : Operations m C) : Option C → Option C → m (Option C)
  | some a, some b => do return some (← ops.inter a b)
  | _, _ => return none

/-- The value, if it is not empty. -/
def nonempty? (ops : Operations m C) (a : C) : m (Option C) := do
  if ← ops.nonempty a then return some a else return none

/-- The union of a list of values, from the left, starting from the given one. -/
def unionAll (ops : Operations m C) (start : C) (values : List C) : m C :=
  values.foldlM ops.union start

end Operations

/-- A color algebra over values of type `C`. -/
structure Algebra (C : Type) extends Operations (Except Misuse) C where
  domain : Domain
  /-- Every valuation of the domain. It can be large, and is computed when it is first needed. -/
  full : Thunk C
  /-- No valuation. -/
  empty : Thunk C
  /-- Accepts the values that can belong to the domain. -/
  accept : C → Except Misuse Unit
  /-- Equality of the sets. -/
  equal : C → C → Except Misuse Bool
  /-- Number of bytes that `put` writes. -/
  byteSize : C → Nat
  put : C → Except Misuse (List UInt8)
  get : List UInt8 → Except DecodeError (C × List UInt8)
  text : C → String
  /-- The text of a value inside a description of a larger one. -/
  describe : C → String
  /-- Length of the longest strictly growing chain of values. -/
  height : Nat

namespace Algebra

variable {C : Type}

/-- The value in its most compact form; all values are compact as they are. -/
def minimize (_ : Algebra C) (a : C) : C := a

/-- Moves a value to another algebra over the same domain. -/
def transfer (source target : Algebra C) (a : C) : Except (Failure AlgebraError) C := do
  if source.domain = target.domain then
    source.accept a
    return a
  else throw (.error (.domainMismatch source.domain target.domain))

end Algebra

end ColoredCtl.Color

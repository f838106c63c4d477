/-!
How an operation can fail.

A `Misuse` is a call that breaks a precondition: the operation has no answer for it. An error of
the domain is an answer, of whatever type the operation has for its errors. `Failure ε` is either.
-/

namespace ColoredCtl

/-- A call that breaks the precondition of an operation. -/
inductive Misuse where
  /-- A valuation that the domain does not have. -/
  | colorOutside (color valuations : Nat)
  /-- A color set with the wrong number of words for the domain. -/
  | wordCount (found expected valuations : Nat)
  /-- A state that the state space does not have. -/
  | stateOutside (state stateCount : Nat)
  /-- Two state sets over different state spaces. -/
  | stateSpaces (left right : Nat)
  /-- A sum that is not a machine word. -/
  | sumOverflow
  /-- A product that is not a machine word. -/
  | productOverflow
  /-- A list or an array of more items than memory can ever hold. -/
  | capacity
  /-- A table of more entries than memory can ever hold. -/
  | tableCapacity
deriving DecidableEq, Repr

/-- The text of a failed comparison of two numbers. -/
def unequal (reason : String) (left right : Nat) : String :=
  s!"assertion `left == right` failed: {reason}\n  left: {left}\n right: {right}"

def Misuse.message : Misuse → String
  | .colorOutside color valuations =>
    s!"color {color} outside of explicit domain of {valuations} valuations"
  | .wordCount found expected valuations =>
    unequal s!"color set of {found} words used with explicit domain of {valuations} valuations"
      found expected
  | .stateOutside state stateCount =>
    s!"state {state} outside of state space of {stateCount} states"
  | .stateSpaces left right => unequal "state sets over different state spaces" left right
  | .sumOverflow => "attempt to add with overflow"
  | .productOverflow => "attempt to multiply with overflow"
  | .capacity => "capacity overflow"
  | .tableCapacity => "Hash table capacity overflow"

/-- A misuse, or an error that the operation is specified to return. -/
inductive Failure (ε : Type) where
  | misuse (cause : Misuse)
  | error (cause : ε)
deriving DecidableEq, Repr

/-- The same failure with its error seen as an error of a larger operation. -/
def Failure.map {ε δ : Type} (f : ε → δ) : Failure ε → Failure δ
  | .misuse cause => .misuse cause
  | .error cause => .error (f cause)

instance {ε : Type} : MonadLift (Except Misuse) (Except (Failure ε)) :=
  ⟨fun x => x.mapError .misuse⟩

/-- An answer or an error, with no misuse. -/
def Failure.lift {ε : Type} {α : Type} (x : Except ε α) : Except (Failure ε) α :=
  x.mapError .error

end ColoredCtl

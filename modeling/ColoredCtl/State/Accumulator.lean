import ColoredCtl.State.StateMap

/-!
Growing maps from states to color sets.

The only update is the union of a value into the value at a state; it tells whether that value grew.
There are two layouts, a dense one over a span of states and a sparse one over the whole space, and
a state outside of that range is an error. The dense layout counts its values as they come, so that
their number is known without looking at the slots.
-/

namespace ColoredCtl

open Color

/-- A map under construction. -/
inductive Accumulator (C : Type) where
  /-- One slot for each state from `start` on, `filled` of them with a value. -/
  | dense (start : Nat) (values : Array (Option C)) (filled : Nat) (stateCount : Nat)
  | sparse (values : Std.TreeMap Nat C) (stateCount : Nat)

namespace Accumulator

variable {C : Type}

/-- Nothing yet, with a slot for each state of the span. -/
def newDense (A : Algebra C) (range : Span) (stateCount : Nat) : Except Misuse (Accumulator C) := do
  Capacity.reserve A.domain.slotBytes range.length
  return .dense range.start (Array.replicate range.length none) 0 stateCount

/-- Nothing yet, over the whole space. -/
def newSparse (stateCount : Nat) : Accumulator C := .sparse ∅ stateCount

/-- The map as it is now. -/
def freeze : Accumulator C → StateMap C
  | .dense start values _ n => .dense start values n
  | .sparse values n => .sparse values n

/-- The value at a state. -/
def get? : Accumulator C → Nat → Option C
  | .dense start values _ _, state => StateMap.slot? start values state
  | .sparse values _, state => values[state]?

/-- Whether there is a value at a state. -/
def contains : Accumulator C → Nat → Bool
  | .dense start values _ _, state => (StateMap.slot? start values state).isSome
  | .sparse values _, state => values.contains state

/-- Number of the states that have a value. -/
def sizeHint : Accumulator C → Nat
  | .dense _ _ filled _ => filled
  | .sparse values _ => values.size

/-- The states that a value may be added to. -/
def range : Accumulator C → Span
  | .dense start values _ _ => ⟨start, start + values.size⟩
  | .sparse _ n => ⟨0, n⟩

/-- Replaces the value at a state of the range. -/
def set (acc : Accumulator C) (state : Nat) (value : C) : Accumulator C :=
  match acc with
  | .dense start values filled n =>
    let filled := if (StateMap.slot? start values state).isNone then filled + 1 else filled
    .dense start (values.setIfInBounds (state - start) (some value)) filled n
  | .sparse values n => .sparse (values.insert state value) n

/-- Adds a value at a state by union, and tells whether the value there grew. -/
def add (A : Algebra C) (acc : Accumulator C) (state : Nat) (value : C) :
    Except (Failure MapError) (Bool × Accumulator C) := do
  if acc.range.contains state then
    match ← (A.grow? (acc.get? state) value : Except Misuse (Option C)) with
    | some grown => return (true, acc.set state grown)
    | none => return (false, acc)
  else throw (.error (.outOfRange state acc.range))

/-- The entries, in increasing order of the states. -/
def entries : Accumulator C → List (Nat × C)
  | .dense start values _ _ =>
    (StateMap.slots values).map fun (position, value) => (start + position, value)
  | .sparse values _ => values.toList

/-- The map with all entries taken out. -/
def clear : Accumulator C → Accumulator C
  | .dense start values _ n => .dense start (Array.replicate values.size none) 0 n
  | .sparse _ n => .sparse ∅ n

def isEmpty (acc : Accumulator C) : Bool := acc.entries.isEmpty

/-- The layout as text. -/
def describe (acc : Accumulator C) : String :=
  let len := ("len", toString acc.sizeHint)
  match acc with
  | .dense _ _ _ _ => StateMap.structureText "ArrayMutableMap" [("span", acc.range.text), len]
  | .sparse _ _ => StateMap.structureText "HashMutableMap" [len]

/-- Replacing the value at a state of the range changes the map there and nowhere else. -/
theorem get?_set (acc : Accumulator C) {state : Nat} (value : C)
    (hrange : acc.range.contains state = true) (other : Nat) :
    (acc.set state value).get? other = if state = other then some value else acc.get? other := by
  cases acc with
  | dense start values filled n =>
    have hspan : start ≤ state ∧ state < start + values.size :=
      (Span.contains_iff _ state).1 hrange
    simp only [set, get?, StateMap.slot?, Array.getElem?_setIfInBounds]
    by_cases hlow : start ≤ other
    · by_cases heq : state = other
      · subst heq
        have hslot : state - start < values.size := by omega
        simp [hlow, hslot]
      · have hne : state - start ≠ other - start := by omega
        simp [hlow, heq, hne]
    · have hne : state ≠ other := by omega
      simp [hlow, hne]
  | sparse values n =>
    simp only [set, get?, Std.TreeMap.getElem?_insert]
    by_cases heq : state = other <;> simp [heq]

@[simp] theorem range_set (acc : Accumulator C) (state : Nat) (value : C) :
    (acc.set state value).range = acc.range := by
  cases acc with
  | dense start values filled n => simp [set, range]
  | sparse values n => rfl

/-- A frozen map has the values that the growing one had. -/
theorem get?_freeze (A : Algebra C) (acc : Accumulator C) (state : Nat) :
    acc.freeze.get? A state = .ok (acc.get? state) := by
  cases acc with
  | dense start values filled n => rfl
  | sparse values n => rfl

end Accumulator

end ColoredCtl

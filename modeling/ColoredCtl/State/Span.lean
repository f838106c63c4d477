namespace ColoredCtl

/-- The states from `start` up to `stop`, without `stop`. -/
structure Span where
  start : Nat
  stop : Nat
deriving DecidableEq, Repr

namespace Span

/-- Number of states; none when the span ends before it starts. -/
def length (r : Span) : Nat := r.stop - r.start

def isEmpty (r : Span) : Bool := decide (r.stop ≤ r.start)

def contains (r : Span) (state : Nat) : Bool := decide (r.start ≤ state) && decide (state < r.stop)

/-- The states, in increasing order. -/
def toList (r : Span) : List Nat := List.range' r.start r.length

def text (r : Span) : String := s!"{r.start}..{r.stop}"

/-- Every `step`-th state of the span, from its start on. -/
def walk (r : Span) (step : Nat) : List Nat :=
  (List.range ((r.length + step - 1) / step)).map fun i => r.start + step * i

@[simp] theorem contains_iff (r : Span) (state : Nat) :
    r.contains state = true ↔ r.start ≤ state ∧ state < r.stop := by
  simp [contains]

@[simp] theorem mem_toList (r : Span) (state : Nat) :
    state ∈ r.toList ↔ r.start ≤ state ∧ state < r.stop := by
  simp only [toList, length, List.mem_range'_1]
  omega

@[simp] theorem length_toList (r : Span) : r.toList.length = r.length := by
  simp [toList]

end Span

end ColoredCtl

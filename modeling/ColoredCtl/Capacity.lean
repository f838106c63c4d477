import ColoredCtl.Failure

/-!
Sizes of machine words and of collections.

States and sizes are machine words of 64 bits. A sum or a product of machine words that is not one
itself is a misuse, and so is asking for a collection that no memory could hold: where the size is
known beforehand, the collection is reserved as a whole before any of its items is computed.
-/

namespace ColoredCtl

namespace Word

/-- The least number that is not a machine word. -/
def bound : Nat := 0x10000000000000000

/-- The sum of two machine words, where it is one. -/
def add (a b : Nat) : Except Misuse Nat :=
  if a + b < bound then .ok (a + b) else .error .sumOverflow

/-- The product of two machine words, where it is one. -/
def mul (a b : Nat) : Except Misuse Nat :=
  if a * b < bound then .ok (a * b) else .error .productOverflow

theorem add_eq_ok_iff {a b sum : Nat} : add a b = .ok sum ↔ a + b = sum ∧ sum < bound := by
  by_cases h : a + b < bound
  · rw [add, if_pos h]
    constructor
    · intro heq
      cases heq
      exact ⟨rfl, h⟩
    · rintro ⟨rfl, _⟩
      rfl
  · rw [add, if_neg h]
    constructor
    · intro heq
      cases heq
    · rintro ⟨rfl, hlt⟩
      exact absurd hlt h

theorem mul_eq_ok_iff {a b product : Nat} :
    mul a b = .ok product ↔ a * b = product ∧ product < bound := by
  by_cases h : a * b < bound
  · rw [mul, if_pos h]
    constructor
    · intro heq
      cases heq
      exact ⟨rfl, h⟩
    · rintro ⟨rfl, _⟩
      rfl
  · rw [mul, if_neg h]
    constructor
    · intro heq
      cases heq
    · rintro ⟨rfl, hlt⟩
      exact absurd hlt h

end Word

namespace Capacity

/-- The number of bytes that a list or an array can take at most. -/
def bytes : Nat := 0x7fffffffffffffff

/-- The number of bytes of a machine word. -/
def wordBytes : Nat := 8

/-- The number of bytes of a row in an array of lists. -/
def rowBytes : Nat := 24

/-- The number of items of a size that a list or an array can have at most. -/
def most (size : Nat) : Nat := bytes / size

/-- Accepts a number of items of a size that a list or an array can have. -/
def reserve (size items : Nat) : Except Misuse Unit :=
  if items ≤ most size then .ok () else .error .capacity

/-- The number of entries that a table can have at most. It has buckets of at least 16 bytes, as many
as a power of two, and fills no more than seven of eight. -/
def tableLimit : Nat := 7 * 0x80000000000000

/-- Accepts a number of entries that a table can have. -/
def reserveTable (entries : Nat) : Except Misuse Unit :=
  if entries ≤ tableLimit then .ok () else .error .tableCapacity

end Capacity

end ColoredCtl

/-!
Bit masks: a number below `1 <<< n` is a set of positions below `n`, with `Nat.testBit` telling its
members.
-/

namespace ColoredCtl.Mask

theorem shift_pos (n : Nat) : 0 < 1 <<< n := by
  rw [Nat.one_shiftLeft]
  exact Nat.two_pow_pos n

theorem shift_le_shift {m n : Nat} (h : m ≤ n) : 1 <<< m ≤ 1 <<< n := by
  rw [Nat.one_shiftLeft, Nat.one_shiftLeft]
  exact Nat.pow_le_pow_right (by decide) h

theorem shift_lt_shift {m n : Nat} (h : m < n) : 1 <<< m < 1 <<< n := by
  rw [Nat.one_shiftLeft, Nat.one_shiftLeft]
  exact Nat.pow_lt_pow_right (by decide) h

theorem or_lt {a b n : Nat} (ha : a < 1 <<< n) (hb : b < 1 <<< n) : a ||| b < 1 <<< n := by
  rw [Nat.one_shiftLeft] at *
  exact Nat.or_lt_two_pow ha hb

theorem and_lt_left {a n : Nat} (b : Nat) (ha : a < 1 <<< n) : a &&& b < 1 <<< n :=
  Nat.lt_of_le_of_lt Nat.and_le_left ha

/-- Taking members away keeps a mask below its bound. -/
theorem diff_lt {a n : Nat} (b : Nat) (ha : a < 1 <<< n) : a ^^^ (a &&& b) < 1 <<< n := by
  have hand := and_lt_left b ha
  rw [Nat.one_shiftLeft] at *
  exact Nat.xor_lt_two_pow ha hand

theorem testBit_diff (a b i : Nat) :
    (a ^^^ (a &&& b)).testBit i = (a.testBit i && !b.testBit i) := by
  rw [Nat.testBit_xor, Nat.testBit_and]
  cases a.testBit i <;> cases b.testBit i <;> rfl

/-- The mask with one member. -/
theorem testBit_shift (n i : Nat) : (1 <<< n).testBit i = decide (n = i) := by
  rw [Nat.one_shiftLeft, Nat.testBit_two_pow]

/-- The mask with all members below `n`. -/
theorem testBit_shift_sub_one (n i : Nat) : (1 <<< n - 1).testBit i = decide (i < n) := by
  rw [Nat.one_shiftLeft, Nat.testBit_two_pow_sub_one]

/-- A mask has no member at or above its bound. -/
theorem lt_of_testBit {a n i : Nat} (ha : a < 1 <<< n) (h : a.testBit i = true) : i < n := by
  by_cases hlt : i < n
  · exact hlt
  · have hle := shift_le_shift (Nat.le_of_not_lt hlt)
    have hbit := Nat.testBit_lt_two_pow (Nat.one_shiftLeft i ▸ Nat.lt_of_lt_of_le ha hle)
    rw [hbit] at h
    cases h

/-- The mask of `count` positions from `start` on. -/
def span (start count : Nat) : Nat := (1 <<< count - 1) <<< start

theorem testBit_span (start count i : Nat) :
    (span start count).testBit i = (decide (start ≤ i) && decide (i < start + count)) := by
  rw [span, Nat.testBit_shiftLeft, testBit_shift_sub_one]
  by_cases h : start ≤ i
  · simp only [h, decide_true, Bool.true_and]
    exact decide_eq_decide.2 (by omega)
  · simp [h]

/-- A mask is below a bound when all of its members are. -/
theorem lt_of_forall_testBit {a n : Nat} (h : ∀ i, a.testBit i = true → i < n) : a < 1 <<< n := by
  rw [Nat.one_shiftLeft]
  apply Nat.lt_pow_two_of_testBit
  intro i hi
  by_cases hbit : a.testBit i
  · have := h i hbit
    omega
  · simpa using hbit

/-- Two ranges that both hold all positions with a property have the same positions with it. -/
theorem filter_range_eq {p : Nat → Bool} {m n : Nat} (hm : ∀ i, p i = true → i < m)
    (hn : ∀ i, p i = true → i < n) : (List.range m).filter p = (List.range n).filter p := by
  have hextend (a b : Nat) (ha : ∀ i, p i = true → i < a) :
      (List.range (a + b)).filter p = (List.range a).filter p := by
    have hnone : ((List.range b).map (a + ·)).filter p = [] := by
      rw [List.filter_eq_nil_iff]
      intro i hi hp
      obtain ⟨j, _, rfl⟩ := List.mem_map.1 hi
      have := ha _ hp
      omega
    rw [List.range_add, List.filter_append, hnone, List.append_nil]
  rcases Nat.le_total m n with hle | hle
  · rw [← Nat.add_sub_cancel' hle, hextend m _ hm]
  · rw [← Nat.add_sub_cancel' hle, hextend n _ hn]

end ColoredCtl.Mask

namespace ColoredCtl.Color.Bits

/-- Whether the bit at a position is set. -/
def test (w : BitVec 64) (i : Nat) : Bool := (w &&& 1#64 <<< i) != 0#64

/-- The bits of the last word that belong to the domain of `n` valuations. -/
def tailMask (n : Nat) : BitVec 64 :=
  if n % 64 = 0 then .allOnes 64 else 1#64 <<< (n % 64) - 1#64

theorem toNat_sub_one {w : BitVec 64} (h : w ≠ 0#64) : (w - 1#64).toNat = w.toNat - 1 := by
  have hpos : 0 < w.toNat := Nat.pos_of_ne_zero fun hzero => h (BitVec.eq_of_toNat_eq hzero)
  have hle : 1#64 ≤ w := hpos
  rw [BitVec.toNat_sub_of_le hle]
  rfl

theorem toNat_clearLowest_lt {w : BitVec 64} (h : w ≠ 0#64) :
    (w &&& (w - 1#64)).toNat < w.toNat := by
  have hpos : 0 < w.toNat := Nat.pos_of_ne_zero fun hzero => h (BitVec.eq_of_toNat_eq hzero)
  have hle : (w &&& (w - 1#64)).toNat ≤ (w - 1#64).toNat := by
    rw [BitVec.toNat_and]
    exact Nat.and_le_right
  rw [toNat_sub_one h] at hle
  omega

/-- The positions of the bits that are set, each counted from `base` on. The lowest one is found and
cleared, until none is left. -/
def members (base : Nat) (w : BitVec 64) : List Nat :=
  if _h : w = 0#64 then []
  else (base + w.ctz.toNat) :: members base (w &&& (w - 1#64))
termination_by w.toNat
decreasing_by exact toNat_clearLowest_lt ‹_›

theorem getLsbD_shift_one (n i : Nat) : (1#64 <<< n).getLsbD i = (decide (i < 64) && decide (n = i)) := by
  rw [BitVec.getLsbD_shiftLeft, BitVec.getLsbD_one, Bool.eq_iff_iff]
  simp only [Bool.and_eq_true, Bool.not_eq_true', decide_eq_true_eq, decide_eq_false_iff_not]
  omega

theorem test_eq (w : BitVec 64) {i : Nat} (hi : i < 64) : test w i = w.getLsbD i := by
  rw [test, Bool.eq_iff_iff, bne_iff_ne]
  constructor
  · intro hne
    refine Decidable.byContradiction fun hbit => hne (BitVec.eq_of_getLsbD_eq fun j hj => ?_)
    rw [BitVec.getLsbD_and, getLsbD_shift_one]
    by_cases heq : i = j
    · subst heq
      simp [hbit]
    · simp [heq]
  · intro hbit hzero
    have hand : (w &&& 1#64 <<< i).getLsbD i = true := by
      rw [BitVec.getLsbD_and, getLsbD_shift_one]
      simp [hbit, hi]
    rw [hzero] at hand
    simp at hand

theorem getLsbD_tailMask (n : Nat) {i : Nat} (hi : i < 64) :
    (tailMask n).getLsbD i = decide (n % 64 = 0 ∨ i < n % 64) := by
  unfold tailMask
  split
  · next h => rw [BitVec.getLsbD_allOnes, decide_eq_true hi, decide_eq_true (.inl h)]
  · next h =>
    have hlt : n % 64 < 64 := Nat.mod_lt n (by decide)
    have hone : (1#64 <<< (n % 64)).toNat = 2 ^ (n % 64) := by
      rw [BitVec.toNat_shiftLeft, BitVec.toNat_ofNat, Nat.shiftLeft_eq, Nat.one_mod_eq_one.2 (by decide), Nat.one_mul]
      exact Nat.mod_eq_of_lt (Nat.pow_lt_pow_right (by decide) hlt)
    have hne : 1#64 <<< (n % 64) ≠ 0#64 := by
      intro hzero
      rw [hzero] at hone
      have := Nat.two_pow_pos (n % 64)
      simp at hone
      omega
    rw [BitVec.getLsbD, toNat_sub_one hne, hone, Nat.testBit_two_pow_sub_one]
    simp [h]

/-- A number and the number before it have the bits in common that are higher than its lowest one. -/
theorem testBit_and_sub_one {n k : Nat} (hset : n.testBit k = true) (hclear : ∀ j < k, n.testBit j = false)
    (i : Nat) : (n &&& (n - 1)).testBit i = (n.testBit i && decide (i ≠ k)) := by
  have hlow : n % 2 ^ (k + 1) = 2 ^ k := by
    apply Nat.eq_of_testBit_eq
    intro j
    rw [Nat.testBit_mod_two_pow, Nat.testBit_two_pow]
    rcases Nat.lt_trichotomy j k with hlt | rfl | hgt
    · simp [hclear j hlt, Nat.ne_of_gt hlt]
    · simp [hset]
    · have hge : ¬j < k + 1 := by omega
      simp [hge, Nat.ne_of_lt hgt]
  obtain ⟨q, rfl⟩ : ∃ q, n = 2 ^ (k + 1) * q + 2 ^ k :=
    ⟨n / 2 ^ (k + 1), by rw [← hlow, Nat.div_add_mod]⟩
  have hpos := Nat.two_pow_pos k
  have hlt : 2 ^ k < 2 ^ (k + 1) := Nat.pow_lt_pow_right (by decide) (Nat.lt_succ_self k)
  have hless : 2 ^ (k + 1) * q + 2 ^ k - 1 = 2 ^ (k + 1) * q + (2 ^ k - 1) := by omega
  rw [Nat.testBit_and, hless, Nat.testBit_two_pow_mul_add q hlt,
    Nat.testBit_two_pow_mul_add q (Nat.lt_of_le_of_lt (Nat.sub_le _ 1) hlt)]
  by_cases hi : i < k + 1
  · rw [if_pos hi, if_pos hi, Nat.testBit_two_pow, Nat.testBit_two_pow_sub_one, Bool.eq_iff_iff]
    simp only [Bool.and_eq_true, decide_eq_true_eq]
    omega
  · have hne : i ≠ k := by omega
    rw [if_neg hi, if_neg hi, Bool.and_self, decide_eq_true hne, Bool.and_true]

/-- Clearing the lowest bit leaves all others. -/
theorem getLsbD_clearLowest {w : BitVec 64} (h : w ≠ 0#64) (i : Nat) :
    (w &&& (w - 1#64)).getLsbD i = (w.getLsbD i && decide (i ≠ w.ctz.toNat)) := by
  have hset : w.toNat.testBit w.ctz.toNat = true := BitVec.getLsbD_true_ctz_of_ne_zero h
  have hclear : ∀ j < w.ctz.toNat, w.toNat.testBit j = false := fun _ => BitVec.getLsbD_false_of_lt_ctz
  rw [BitVec.getLsbD, BitVec.toNat_and, toNat_sub_one h]
  exact testBit_and_sub_one hset hclear i

/-- The first position with a property comes first in the list of all of them. -/
theorem filter_range_first {p : Nat → Bool} {n k : Nat} (hk : k < n) (hp : p k = true)
    (hbefore : ∀ i < k, p i = false) :
    (List.range n).filter p = k :: (List.range n).filter fun i => p i && decide (i ≠ k) := by
  obtain ⟨m, rfl⟩ : ∃ m, n = k + (m + 1) := ⟨n - k - 1, by omega⟩
  have hnone : (List.range k).filter p = [] := by
    rw [List.filter_eq_nil_iff]
    intro i hi
    simp [hbefore i (List.mem_range.1 hi)]
  have hnone' : ((List.range k).filter fun i => p i && decide (i ≠ k)) = [] := by
    rw [List.filter_eq_nil_iff]
    intro i hi
    simp [hbefore i (List.mem_range.1 hi)]
  rw [List.range_add, List.filter_append, List.filter_append, hnone, hnone', List.range_succ_eq_map,
    List.map_cons, List.map_map, Nat.add_zero, List.filter_cons_of_pos hp, List.filter_cons_of_neg (by simp)]
  refine congrArg (k :: ·) (List.filter_congr fun i hi => ?_)
  obtain ⟨j, _, rfl⟩ := List.mem_map.1 hi
  simp

/-- The members of a word are the positions of its bits, in increasing order. -/
theorem members_eq (base : Nat) (w : BitVec 64) :
    members base w = ((List.range 64).filter w.getLsbD).map (base + ·) := by
  induction w using members.induct with
  | case1 =>
    unfold members
    simp
  | case2 w h ih =>
    have hlt : w.ctz.toNat < 64 := BitVec.ctz_lt_iff_ne_zero.2 h
    have hrest : (w &&& (w - 1#64)).getLsbD = fun i => w.getLsbD i && decide (i ≠ w.ctz.toNat) :=
      funext (getLsbD_clearLowest h)
    unfold members
    rw [dif_neg h, ih, hrest, filter_range_first hlt (BitVec.getLsbD_true_ctz_of_ne_zero h)
      fun i hi => BitVec.getLsbD_false_of_lt_ctz hi, List.map_cons]

/-- The number of bits that are set is the number of members. -/
theorem toNat_cpop_eq (base : Nat) (w : BitVec 64) : w.cpop.toNat = (members base w).length := by
  have hcount : ∀ k, w.cpopNatRec k 0 = ((List.range k).filter w.getLsbD).length := by
    intro k
    induction k with
    | zero => rfl
    | succ k ih =>
      rw [BitVec.cpopNatRec_succ, BitVec.cpopNatRec_add, ih, List.range_succ, List.filter_append,
        List.length_append]
      cases hbit : w.getLsbD k <;> simp [hbit]
  rw [members_eq, List.length_map, BitVec.toNat_cpop, hcount]

end ColoredCtl.Color.Bits

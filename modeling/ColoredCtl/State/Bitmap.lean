import ColoredCtl.Mask.Basic

/-!
Bitmaps: sets of positions, packed into an array of 64-bit words.

A bitmap has room for a fixed number of positions. `get` tells its members, and says what each
operation does; bitmaps with equal room and equal members are equal.
-/

namespace ColoredCtl

/-- The positions below `64 * words.size`, each in the set or not. -/
structure Bitmap where
  words : Array Nat
  isLt : ∀ i (h : i < words.size), words[i] < 1 <<< 64
deriving DecidableEq

namespace Bitmap

/-- Whether the position is in the set. -/
def get (b : Bitmap) (i : Nat) : Bool := (b.words.getD (i / 64) 0).testBit (i % 64)

theorem get_eq (b : Bitmap) (i : Nat) :
    b.get i = (b.words[i / 64]?.getD 0).testBit (i % 64) := by
  rw [get, Array.getD_eq_getD_getElem?]

/-- No position, with room for the positions below `count`. -/
def empty (count : Nat) : Bitmap where
  words := Array.replicate ((count + 63) / 64) 0
  isLt i h := by
    rw [Array.getElem_replicate]
    exact Mask.shift_pos 64

/-- Changes the word of a position. -/
def modify (b : Bitmap) (i : Nat) (f : Nat → Nat) (hf : ∀ w, w < 1 <<< 64 → f w < 1 <<< 64) :
    Bitmap where
  words := b.words.modify (i / 64) f
  isLt j h := by
    have hj : j < b.words.size := by simpa using h
    rw [Array.getElem_modify]
    split
    · exact hf _ (b.isLt j hj)
    · exact b.isLt j hj

/-- Adds a position. -/
def insert (b : Bitmap) (i : Nat) : Bitmap :=
  b.modify i (· ||| 1 <<< (i % 64)) fun _ hw =>
    Mask.or_lt hw (Mask.shift_lt_shift (Nat.mod_lt i (by decide)))

/-- Takes a position away. -/
def erase (b : Bitmap) (i : Nat) : Bitmap :=
  b.modify i (fun w => w ^^^ (w &&& 1 <<< (i % 64))) fun _ hw => Mask.diff_lt _ hw

/-- The part of a range of positions that falls into the word at an index. -/
def window (start stop index : Nat) : Nat :=
  let first := min 64 (start - 64 * index)
  Mask.span first (min 64 (stop - 64 * index) - first)

theorem testBit_window (start stop index j : Nat) :
    (window start stop index).testBit j =
      (decide (j < 64) && (decide (start ≤ 64 * index + j) && decide (64 * index + j < stop))) := by
  rw [window, Mask.testBit_span, Bool.eq_iff_iff]
  simp only [Bool.and_eq_true, decide_eq_true_eq]
  omega

/-- Adds the positions from `start` up to `stop` that there is room for. -/
def insertRange (b : Bitmap) (start stop : Nat) : Bitmap where
  words := b.words.mapIdx fun index w => w ||| window start stop index
  isLt i h := by
    have hi : i < b.words.size := by simpa using h
    rw [Array.getElem_mapIdx]
    refine Mask.or_lt (b.isLt i hi) (Mask.lt_of_forall_testBit fun j hj => ?_)
    rw [testBit_window, Bool.and_eq_true, decide_eq_true_eq] at hj
    exact hj.1

/-- The positions of either bitmap; both have the same room. -/
def union (a b : Bitmap) : Bitmap where
  words := Array.zipWith (· ||| ·) a.words b.words
  isLt i h := by
    have hi : i < a.words.size ∧ i < b.words.size := by
      simp only [Array.size_zipWith] at h
      omega
    rw [Array.getElem_zipWith]
    exact Mask.or_lt (a.isLt i hi.1) (b.isLt i hi.2)

/-- The positions of both bitmaps. -/
def inter (a b : Bitmap) : Bitmap where
  words := Array.zipWith (· &&& ·) a.words b.words
  isLt i h := by
    have hi : i < a.words.size ∧ i < b.words.size := by
      simp only [Array.size_zipWith] at h
      omega
    rw [Array.getElem_zipWith]
    exact Mask.and_lt_left _ (a.isLt i hi.1)

def isEmpty (b : Bitmap) : Bool := b.words.all (· == 0)

/-- The members of the lowest bits of a word, each counted from `base` on, in front of a list. -/
def wordMembers (word base : Nat) : (bits : Nat) → (acc : List Nat) → List Nat
  | 0, acc => acc
  | bit + 1, acc =>
    wordMembers word base bit (if word.testBit bit then (base + bit) :: acc else acc)

/-- The members in the first words, in front of a list. -/
def members (words : Array Nat) : (count : Nat) → (acc : List Nat) → List Nat
  | 0, acc => acc
  | index + 1, acc =>
    let word := words.getD index 0
    members words index (if word = 0 then acc else wordMembers word (64 * index) 64 acc)

/-- The members, in increasing order. -/
def toList (b : Bitmap) : List Nat := members b.words b.words.size []

@[simp] theorem size_empty (count : Nat) : (empty count).words.size = (count + 63) / 64 := by
  simp [empty]

@[simp] theorem size_insert (b : Bitmap) (i : Nat) : (b.insert i).words.size = b.words.size := by
  simp [insert, modify]

@[simp] theorem size_erase (b : Bitmap) (i : Nat) : (b.erase i).words.size = b.words.size := by
  simp [erase, modify]

@[simp] theorem size_insertRange (b : Bitmap) (start stop : Nat) :
    (b.insertRange start stop).words.size = b.words.size := by
  simp [insertRange]

@[simp] theorem size_union {a b : Bitmap} (h : a.words.size = b.words.size) :
    (a.union b).words.size = a.words.size := by
  simp [union, h]

@[simp] theorem size_inter {a b : Bitmap} (h : a.words.size = b.words.size) :
    (a.inter b).words.size = a.words.size := by
  simp [inter, h]

/-- A bitmap has no member outside of its room. -/
theorem lt_of_get {b : Bitmap} {i : Nat} (h : b.get i = true) : i < 64 * b.words.size := by
  by_cases hi : i / 64 < b.words.size
  · omega
  · rw [get_eq, Array.getElem?_eq_none (by omega)] at h
    simp at h

@[simp] theorem get_empty (count i : Nat) : (empty count).get i = false := by
  rw [get_eq, empty, Array.getElem?_replicate]
  split <;> simp

theorem get_modify (b : Bitmap) (i : Nat) (f : Nat → Nat)
    (hf : ∀ w, w < 1 <<< 64 → f w < 1 <<< 64) (j : Nat) (hi : i < 64 * b.words.size) :
    (b.modify i f hf).get j =
      if i / 64 = j / 64 then (f (b.words[j / 64]?.getD 0)).testBit (j % 64) else b.get j := by
  rw [get_eq, get_eq, modify, Array.getElem?_modify]
  split
  · next h =>
    have hj : j / 64 < b.words.size := by omega
    simp [Array.getElem?_eq_getElem hj]
  · rfl

theorem get_insert (b : Bitmap) {i : Nat} (hi : i < 64 * b.words.size) (j : Nat) :
    (b.insert i).get j = (b.get j || decide (i = j)) := by
  rw [insert, get_modify b i _ _ j hi]
  split
  · next h =>
    rw [Nat.testBit_or, Mask.testBit_shift, ← get_eq]
    congr 1
    exact decide_eq_decide.2 (by omega)
  · next h =>
    have hne : i ≠ j := fun heq => h (heq ▸ rfl)
    simp [hne]

/-- A position that there is no room for is not there, and taking it away changes nothing. -/
theorem get_erase (b : Bitmap) (i j : Nat) :
    (b.erase i).get j = (b.get j && !decide (i = j)) := by
  by_cases hi : i < 64 * b.words.size
  · rw [erase, get_modify b i _ _ j hi]
    split
    · next h =>
      rw [Mask.testBit_diff, Mask.testBit_shift, ← get_eq]
      congr 2
      exact decide_eq_decide.2 (by omega)
    · next h =>
      have hne : i ≠ j := fun heq => h (heq ▸ rfl)
      simp [hne]
  · have hwords : (b.erase i).words = b.words := by
      apply Array.ext_getElem?
      intro k
      rw [erase, modify, Array.getElem?_modify]
      split
      · rw [Array.getElem?_eq_none (by omega), Option.map_none]
      · rfl
    rw [get, hwords, ← get]
    cases hget : b.get j with
    | false => rfl
    | true =>
      have hne : i ≠ j := fun heq => hi (heq ▸ lt_of_get hget)
      simp [hne]

theorem get_insertRange (b : Bitmap) (start stop : Nat) {i : Nat} (hi : i < 64 * b.words.size) :
    (b.insertRange start stop).get i =
      (b.get i || (decide (start ≤ i) && decide (i < stop))) := by
  have hindex : i / 64 < b.words.size := by omega
  have hpos : 64 * (i / 64) + i % 64 = i := Nat.div_add_mod i 64
  have hbit : i % 64 < 64 := Nat.mod_lt i (by decide)
  rw [get_eq, get_eq, insertRange, Array.getElem?_mapIdx, Array.getElem?_eq_getElem hindex]
  simp only [Option.map_some, Option.getD_some, Nat.testBit_or, testBit_window, hpos, hbit,
    decide_true, Bool.true_and]

theorem get_union {a b : Bitmap} (h : a.words.size = b.words.size) (i : Nat) :
    (a.union b).get i = (a.get i || b.get i) := by
  by_cases hi : i / 64 < a.words.size
  · have hb : i / 64 < b.words.size := h ▸ hi
    have hu : i / 64 < (a.union b).words.size := by rw [size_union h]; exact hi
    rw [get_eq, get_eq, get_eq, Array.getElem?_eq_getElem hu, Array.getElem?_eq_getElem hi,
      Array.getElem?_eq_getElem hb]
    simp [union]
  · have hb : b.words.size ≤ i / 64 := by omega
    have hu : (a.union b).words.size ≤ i / 64 := by rw [size_union h]; omega
    rw [get_eq, get_eq, get_eq, Array.getElem?_eq_none hu, Array.getElem?_eq_none (by omega),
      Array.getElem?_eq_none hb]
    simp

theorem get_inter {a b : Bitmap} (h : a.words.size = b.words.size) (i : Nat) :
    (a.inter b).get i = (a.get i && b.get i) := by
  by_cases hi : i / 64 < a.words.size
  · have hb : i / 64 < b.words.size := h ▸ hi
    have hu : i / 64 < (a.inter b).words.size := by rw [size_inter h]; exact hi
    rw [get_eq, get_eq, get_eq, Array.getElem?_eq_getElem hu, Array.getElem?_eq_getElem hi,
      Array.getElem?_eq_getElem hb]
    simp [inter]
  · have hb : b.words.size ≤ i / 64 := by omega
    have hu : (a.inter b).words.size ≤ i / 64 := by rw [size_inter h]; omega
    rw [get_eq, get_eq, get_eq, Array.getElem?_eq_none hu, Array.getElem?_eq_none (by omega),
      Array.getElem?_eq_none hb]
    simp

theorem wordMembers_eq (word base bits : Nat) (acc : List Nat) :
    wordMembers word base bits acc =
      ((List.range bits).filter word.testBit).map (base + ·) ++ acc := by
  induction bits generalizing acc with
  | zero => rfl
  | succ bit ih =>
    rw [wordMembers, ih, List.range_succ, List.filter_append, List.map_append, List.append_assoc]
    congr 1
    by_cases h : word.testBit bit <;> simp [h]

theorem members_eq (b : Bitmap) (count : Nat) (acc : List Nat) :
    members b.words count acc = (List.range (64 * count)).filter b.get ++ acc := by
  induction count generalizing acc with
  | zero => rfl
  | succ index ih =>
    have hword : ∀ j < 64, b.get (64 * index + j) = (b.words.getD index 0).testBit j := by
      intro j hj
      rw [get, show (64 * index + j) / 64 = index by omega, show (64 * index + j) % 64 = j by omega]
    have hlast : ((List.range 64).map (64 * index + ·)).filter b.get =
        ((List.range 64).filter (b.words.getD index 0).testBit).map (64 * index + ·) := by
      rw [List.filter_map]
      congr 1
      exact List.filter_congr fun j hj => hword j (List.mem_range.1 hj)
    rw [members, ih, Nat.mul_succ, List.range_add, List.filter_append, hlast, List.append_assoc]
    congr 1
    by_cases h : b.words.getD index 0 = 0
    · simp [h]
    · simp only [if_neg h, wordMembers_eq]

/-- Listing the members filters the positions of the room. -/
theorem toList_eq (b : Bitmap) : b.toList = (List.range (64 * b.words.size)).filter b.get := by
  rw [toList, members_eq, List.append_nil]

@[simp] theorem mem_toList (b : Bitmap) (i : Nat) : i ∈ b.toList ↔ b.get i = true := by
  simp only [toList_eq, List.mem_filter, List.mem_range, and_iff_right_iff_imp]
  exact lt_of_get

/-- Bitmaps with equal room and equal members are equal. -/
theorem ext {a b : Bitmap} (hsize : a.words.size = b.words.size)
    (h : ∀ i, a.get i = b.get i) : a = b := by
  have hwords : a.words = b.words := by
    apply Array.ext hsize
    intro i ha hb
    apply Nat.eq_of_testBit_eq
    intro j
    by_cases hj : j < 64
    · have hget := h (64 * i + j)
      have hdiv : (64 * i + j) / 64 = i := by omega
      have hmod : (64 * i + j) % 64 = j := by omega
      simpa [get_eq, hdiv, hmod, ha, hb] using hget
    · rw [Bool.eq_iff_iff]
      constructor
      · intro hbit
        exact absurd (Mask.lt_of_testBit (a.isLt i ha) hbit) hj
      · intro hbit
        exact absurd (Mask.lt_of_testBit (b.isLt i hb) hbit) hj
  cases a
  cases b
  simpa using hwords

theorem isEmpty_iff (b : Bitmap) : b.isEmpty = true ↔ ∀ i, b.get i = false := by
  simp only [isEmpty, Array.all_eq_true, beq_iff_eq]
  constructor
  · intro h i
    rw [get_eq]
    by_cases hi : i / 64 < b.words.size
    · simp [Array.getElem?_eq_getElem hi, h _ hi]
    · simp [Array.getElem?_eq_none (Nat.le_of_not_lt hi)]
  · intro h i hi
    apply Nat.eq_of_testBit_eq
    intro j
    by_cases hj : j < 64
    · have hget := h (64 * i + j)
      have hdiv : (64 * i + j) / 64 = i := by omega
      have hmod : (64 * i + j) % 64 = j := by omega
      simpa [get_eq, hdiv, hmod, hi] using hget
    · by_cases hbit : (b.words[i]).testBit j
      · exact absurd (Mask.lt_of_testBit (b.isLt i hi) hbit) hj
      · simpa using hbit

end Bitmap

end ColoredCtl

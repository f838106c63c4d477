import ColoredCtl.Capacity
import ColoredCtl.Color.Algebra
import ColoredCtl.Color.Bits

namespace ColoredCtl.Color

/-- The text of a list of numbers as a set. -/
def setText (members : List Nat) : String :=
  "\x7b" ++ ", ".intercalate (members.map toString) ++ "\x7d"

/-- A set of valuations, one bit for each, in words of 64 bits. The sets of a domain have no bits beyond
the domain in their last word. -/
structure ColorSet where
  words : Array (BitVec 64)
deriving DecidableEq

namespace ColorSet

def contains (a : ColorSet) (color : Nat) : Bool :=
  (a.words[color / 64]?).any fun w => Bits.test w (color % 64)

/-- The members, in increasing order. -/
def toList (a : ColorSet) : List Nat :=
  a.words.toList.zipIdx.flatMap fun (w, i) => Bits.members (64 * i) w

/-- Number of the members. -/
def size (a : ColorSet) : Nat := a.words.foldl (fun total w => total + w.cpop.toNat) 0

def isEmpty (a : ColorSet) : Bool := a.words.all (· == 0#64)

def text (a : ColorSet) : String := setText a.toList

/-- Number of words that hold one bit for each valuation. -/
def wordCount (valuations : Nat) : Nat := (valuations + 63) / 64

/-- Clears the bits of the last word that are beyond the domain. -/
def maskTail (n : Nat) (words : Array (BitVec 64)) : Array (BitVec 64) :=
  words.modify (words.size - 1) (· &&& Bits.tailMask n)

/-- No color, in as many words as the domain has. -/
def empty (n : Nat) : ColorSet := ⟨Array.replicate (wordCount n) 0#64⟩

/-- Every color of the domain. -/
def full (n : Nat) : ColorSet := ⟨maskTail n (Array.replicate (wordCount n) (.allOnes 64))⟩

/-- Combines two sets word by word. -/
def zip (op : BitVec 64 → BitVec 64 → BitVec 64) (a b : ColorSet) : ColorSet :=
  ⟨Array.zipWith op a.words b.words⟩

def inter (a b : ColorSet) : ColorSet := zip (· &&& ·) a b

def union (a b : ColorSet) : ColorSet := zip (· ||| ·) a b

/-- The members of the first set that the second has not. -/
def diff (a b : ColorSet) : ColorSet := zip (fun target against => against &&& ~~~target) b a

/-- The colors of the domain that are not in the set. -/
def compl (n : Nat) (a : ColorSet) : ColorSet := ⟨maskTail n (a.words.map (~~~·))⟩

/-- The set with one more color, if the domain has it. -/
def insert (n : Nat) (a : ColorSet) (color : Nat) : Except Misuse ColorSet :=
  if color < n then .ok ⟨a.words.modify (color / 64) (· ||| 1#64 <<< (color % 64))⟩
  else .error (.colorOutside color n)

/-- The set of the listed colors, which must all be in the domain. -/
def ofList (n : Nat) (colors : List Nat) : Except Misuse ColorSet :=
  colors.foldlM (insert n) (empty n)

/-- The set with the next colors from a color on, which must all be in the domain. -/
def insertFrom (n : Nat) : (count color : Nat) → ColorSet → Except Misuse ColorSet
  | 0, _, a => .ok a
  | count + 1, color, a => do insertFrom n count (color + 1) (← a.insert n color)

/-- The set of the colors from `start` up to `stop`, without `stop`. There must be room for a list of
them. -/
def ofRange (n start stop : Nat) : Except Misuse ColorSet := do
  Capacity.reserve Capacity.wordBytes (stop - start)
  insertFrom n (stop - start) start (empty n)

/-- Reads a number of words from the front of a byte string, behind the words read before, the last
of which comes first. -/
def getWords : (count : Nat) → (before : List (BitVec 64)) → List UInt8 →
    Except DecodeError (List (BitVec 64) × List UInt8)
  | 0, before, bytes => .ok (before.reverse, bytes)
  | count + 1, before, bytes =>
    match Wire.next .word64 bytes with
    | .error cause => .error (.truncated cause)
    | .ok (w, rest) => getWords count (.ofNat 64 w.toNat :: before) rest

/-- Accepts the sets with as many words as the domain has. -/
def accept (n : Nat) (a : ColorSet) : Except Misuse Unit :=
  if a.words.size = wordCount n then .ok ()
  else .error (.wordCount a.words.size (wordCount n) n)

/-- The words, least significant first, behind their number. -/
def put (a : ColorSet) : List UInt8 :=
  Wire.put .int32 a.words.size ++ a.words.toList.flatMap fun w => Wire.put .word64 w.toNat

/-- Reads a set of the domain from the front of a byte string. -/
def get (n : Nat) (bytes : List UInt8) : Except DecodeError (ColorSet × List UInt8) := do
  let (count, rest) ← (Wire.next .int32 bytes).mapError .truncated
  if count ≠ wordCount n then throw (.wordCount (wordCount n) count)
  let (ws, rest) ← getWords (wordCount n) [] rest
  if ws.getLast?.any (fun w => w &&& ~~~Bits.tailMask n != 0#64) then throw (.outsideDomain n)
  return (⟨ws.toArray⟩, rest)

theorem valuations_le (n : Nat) : n ≤ 64 * wordCount n := by
  unfold wordCount
  omega

/-- The bit of a color; beyond the words there is none. -/
theorem contains_eq (a : ColorSet) (c : Nat) :
    a.contains c = (a.words[c / 64]?.getD 0#64).getLsbD (c % 64) := by
  have hlt : c % 64 < 64 := Nat.mod_lt c (by decide)
  rw [contains]
  cases a.words[c / 64]? with
  | none => simp
  | some w => simp [Bits.test_eq w hlt]

/-- A set has no member beyond its words. -/
theorem lt_of_contains {a : ColorSet} {c : Nat} (h : a.contains c = true) :
    c < 64 * a.words.size := by
  by_cases hc : c / 64 < a.words.size
  · omega
  · rw [contains_eq, Array.getElem?_eq_none (by omega)] at h
    simp at h

@[simp] theorem size_maskTail (n : Nat) (words : Array (BitVec 64)) :
    (maskTail n words).size = words.size :=
  Array.size_modify

/-- Masking the last word takes away what is beyond the domain. -/
theorem contains_maskTail {n : Nat} {words : Array (BitVec 64)} (hsize : words.size = wordCount n)
    (c : Nat) : contains ⟨maskTail n words⟩ c = (contains ⟨words⟩ c && decide (c < n)) := by
  have hlt : c % 64 < 64 := Nat.mod_lt c (by decide)
  rw [contains_eq, contains_eq, maskTail, Array.getElem?_modify]
  unfold wordCount at hsize
  by_cases hc : c / 64 < words.size
  · rw [Array.getElem?_eq_getElem hc]
    by_cases hlast : words.size - 1 = c / 64
    · have htail : decide (n % 64 = 0 ∨ c % 64 < n % 64) = decide (c < n) :=
        decide_eq_decide.2 (by omega)
      simp [hlast, Bits.getLsbD_tailMask n hlt, htail]
    · have hin : c < n := by omega
      simp [hlast, hin]
  · simp [Array.getElem?_eq_none (Nat.le_of_not_lt hc)]

theorem contains_replicate (count c : Nat) (w : BitVec 64) :
    contains ⟨Array.replicate count w⟩ c = (decide (c < 64 * count) && w.getLsbD (c % 64)) := by
  rw [contains_eq, Array.getElem?_replicate]
  by_cases hc : c / 64 < count
  · have hlt : c < 64 * count := by omega
    simp [hc, hlt]
  · have hge : ¬c < 64 * count := by omega
    simp [hc, hge]

@[simp] theorem contains_empty (n c : Nat) : (empty n).contains c = false := by
  rw [empty, contains_replicate]
  simp

@[simp] theorem contains_full (n c : Nat) : (full n).contains c = decide (c < n) := by
  have hbit : (BitVec.allOnes 64).getLsbD (c % 64) = true := by
    rw [BitVec.getLsbD_allOnes]
    exact decide_eq_true (Nat.mod_lt c (by decide))
  rw [full, contains_maskTail Array.size_replicate, contains_replicate, hbit, Bool.and_true, Bool.eq_iff_iff,
    Bool.and_eq_true, decide_eq_true_iff, decide_eq_true_iff]
  have := valuations_le n
  omega

/-- What is combined word by word is combined bit by bit. -/
theorem contains_zip {op : BitVec 64 → BitVec 64 → BitVec 64} {f : Bool → Bool → Bool}
    (hop : ∀ v w, ∀ i < 64, (op v w).getLsbD i = f (v.getLsbD i) (w.getLsbD i))
    (hf : f false false = false) {a b : ColorSet} (h : a.words.size = b.words.size) (c : Nat) :
    (zip op a b).contains c = f (a.contains c) (b.contains c) := by
  rw [contains_eq, contains_eq, contains_eq, zip, Array.getElem?_zipWith]
  by_cases hc : c / 64 < a.words.size
  · rw [Array.getElem?_eq_getElem hc, Array.getElem?_eq_getElem (h ▸ hc)]
    exact hop _ _ _ (Nat.mod_lt c (by decide))
  · rw [Array.getElem?_eq_none (Nat.le_of_not_lt hc), Array.getElem?_eq_none (h ▸ Nat.le_of_not_lt hc)]
    simp [hf]

section

variable {n : Nat} {a b : ColorSet} (h : a.words.size = b.words.size) (c : Nat)

include h

theorem contains_inter : (a.inter b).contains c = (a.contains c && b.contains c) :=
  contains_zip (f := (· && ·)) (fun _ _ _ _ => BitVec.getLsbD_and) rfl h c

theorem contains_union : (a.union b).contains c = (a.contains c || b.contains c) :=
  contains_zip (f := (· || ·)) (fun _ _ _ _ => BitVec.getLsbD_or) rfl h c

theorem contains_diff : (a.diff b).contains c = (a.contains c && !b.contains c) := by
  refine contains_zip (f := fun target against => against && !target) (fun v w i hi => ?_) rfl h.symm c
  simp [hi]

end

theorem contains_compl {n : Nat} {a : ColorSet} (h : a.words.size = wordCount n) (c : Nat) :
    (a.compl n).contains c = (decide (c < n) && !a.contains c) := by
  have hlt : c % 64 < 64 := Nat.mod_lt c (by decide)
  rw [compl, contains_maskTail (by simpa using h), contains_eq, contains_eq, Array.getElem?_map]
  by_cases hc : c / 64 < a.words.size
  · simp [Array.getElem?_eq_getElem hc, hlt, Bool.and_comm]
  · have hout : ¬c < n := by
      have := valuations_le n
      omega
    simp [hout]

/-- One bit or-ed into its word adds the color. -/
theorem contains_insertBit {a : ColorSet} {c : Nat} (hc : c < 64 * a.words.size) (d : Nat) :
    contains ⟨a.words.modify (c / 64) (· ||| 1#64 <<< (c % 64))⟩ d =
      (a.contains d || decide (c = d)) := by
  rw [contains_eq, contains_eq, Array.getElem?_modify]
  by_cases hword : c / 64 = d / 64
  · have hd : d / 64 < a.words.size := by omega
    have hlt : d % 64 < 64 := Nat.mod_lt d (by decide)
    have hsame : decide (c % 64 = d % 64) = decide (c = d) := decide_eq_decide.2 (by omega)
    rw [if_pos hword, Array.getElem?_eq_getElem hd, Option.map_some, Option.getD_some, Option.getD_some,
      BitVec.getLsbD_or, Bits.getLsbD_shift_one, decide_eq_true hlt, Bool.true_and, hsame]
  · have hne : c ≠ d := fun heq => hword (heq ▸ rfl)
    simp [hword, hne]

/-- Listing the members filters the positions of the words. -/
theorem toList_eq (a : ColorSet) : a.toList = (List.range (64 * a.words.size)).filter a.contains := by
  have hbits (i : Nat) (hi : i < a.words.size) :
      ((List.range 64).map (64 * i + ·)).filter a.contains = Bits.members (64 * i) a.words[i] := by
    rw [Bits.members_eq, List.filter_map]
    congr 1
    refine List.filter_congr fun j hj => ?_
    have hj := List.mem_range.1 hj
    have hdiv : (64 * i + j) / 64 = i := by omega
    have hmod : (64 * i + j) % 64 = j := by omega
    rw [Function.comp, contains_eq, hdiv, hmod, Array.getElem?_eq_getElem hi, Option.getD_some]
  have htake : ∀ count ≤ a.words.size,
      ((a.words.toList.take count).zipIdx.flatMap fun (w, i) => Bits.members (64 * i) w) =
        (List.range (64 * count)).filter a.contains := by
    intro count
    induction count with
    | zero => simp
    | succ count ih =>
      intro hcount
      have hlt : count < a.words.toList.length := by
        rw [Array.length_toList]
        exact hcount
      rw [List.take_succ_eq_append_getElem hlt, List.zipIdx_append, List.flatMap_append, ih (by omega),
        Nat.mul_succ, List.range_add, List.filter_append, hbits count hcount]
      simp [Nat.min_eq_left (Nat.le_of_lt hcount)]
  have hall := htake a.words.size (Nat.le_refl _)
  rwa [List.take_of_length_le (by simp)] at hall

@[simp] theorem mem_toList (a : ColorSet) (c : Nat) : c ∈ a.toList ↔ a.contains c = true := by
  simp only [toList_eq, List.mem_filter, List.mem_range, and_iff_right_iff_imp]
  exact lt_of_contains

/-- Counting the bits of all words counts the members. -/
theorem size_eq (a : ColorSet) : a.size = a.toList.length := by
  have hfold : ∀ (ws : List (BitVec 64)) (start : Nat) (first : Nat),
      ws.foldl (fun total w => total + w.cpop.toNat) start =
        start + ((ws.zipIdx first).flatMap fun (w, i) => Bits.members (64 * i) w).length := by
    intro ws
    induction ws with
    | nil => simp
    | cons w ws ih =>
      intro start first
      rw [List.foldl_cons, ih _ (first + 1), List.zipIdx_cons, List.flatMap_cons, List.length_append,
        Bits.toNat_cpop_eq (64 * first), Nat.add_assoc]
  rw [size, ← Array.foldl_toList, hfold _ 0 0, Nat.zero_add]
  rfl

/-- Sets with as many words and the same members are equal. -/
theorem ext {a b : ColorSet} (hsize : a.words.size = b.words.size)
    (h : ∀ c, a.contains c = b.contains c) : a = b := by
  have hwords : a.words = b.words := by
    refine Array.ext hsize fun i ha hb => BitVec.eq_of_getLsbD_eq fun j hj => ?_
    have hbit := h (64 * i + j)
    have hdiv : (64 * i + j) / 64 = i := by omega
    have hmod : (64 * i + j) % 64 = j := by omega
    simpa [contains_eq, hdiv, hmod, ha, hb] using hbit
  cases a
  cases b
  cases hwords
  rfl

/-- A set is empty exactly when no color is in it. -/
theorem isEmpty_iff (a : ColorSet) : a.isEmpty = true ↔ ∀ c, a.contains c = false := by
  simp only [isEmpty, Array.all_eq_true, beq_iff_eq]
  constructor
  · intro h c
    rw [contains_eq]
    by_cases hc : c / 64 < a.words.size
    · simp [Array.getElem?_eq_getElem hc, h _ hc]
    · simp [Array.getElem?_eq_none (Nat.le_of_not_lt hc)]
  · intro h i hi
    refine BitVec.eq_of_getLsbD_eq fun j hj => ?_
    have hbit := h (64 * i + j)
    have hdiv : (64 * i + j) / 64 = i := by omega
    have hmod : (64 * i + j) % 64 = j := by omega
    simpa [contains_eq, hdiv, hmod, hi] using hbit

end ColorSet

/-- The algebra of the subsets of `0, …, n - 1`. -/
def Algebra.explicit (n : Nat) : Algebra ColorSet where
  domain := .explicit n
  full := ⟨fun _ => ColorSet.full n⟩
  empty := ⟨fun _ => ColorSet.empty n⟩
  accept := ColorSet.accept n
  inter a b := do a.accept n; b.accept n; return a.inter b
  union a b := do a.accept n; b.accept n; return a.union b
  compl a := do a.accept n; return a.compl n
  diff a b := do b.accept n; a.accept n; return a.diff b
  nonempty a := do a.accept n; return !a.isEmpty
  equal a b := do a.accept n; b.accept n; return a.words == b.words
  byteSize a := 4 + 8 * a.words.size
  put a := do a.accept n; return a.put
  get := ColorSet.get n
  text := ColorSet.text
  describe := ColorSet.text
  height := 64 * ColorSet.wordCount n

end ColoredCtl.Color

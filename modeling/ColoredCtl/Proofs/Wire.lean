import ColoredCtl.Wire

namespace ColoredCtl.Wire

theorem Kind.inRange_byte {n : Int} : Kind.InRange .byte n ↔ 0 ≤ n ∧ n < 0x100 := by
  have hpow : ((Nat.pow 256 1 : Nat) : Int) = 0x100 := by decide
  simp only [InRange, least, width]
  omega

theorem Kind.inRange_int32 {n : Int} : Kind.InRange .int32 n ↔ -0x80000000 ≤ n ∧ n < 0x80000000 := by
  have hpow : ((Nat.pow 256 4 : Nat) : Int) = 0x100000000 := by decide
  simp only [InRange, least, width]
  omega

theorem Kind.inRange_word64 {n : Int} : Kind.InRange .word64 n ↔ 0 ≤ n ∧ n < 0x10000000000000000 := by
  have hpow : ((Nat.pow 256 8 : Nat) : Int) = 0x10000000000000000 := by decide
  simp only [InRange, least, width]
  omega

theorem foldl_value (bytes : List UInt8) (start : Nat) :
    bytes.foldl (fun n b => 256 * n + b.toNat) start =
      start * Nat.pow 256 bytes.length + value bytes := by
  induction bytes generalizing start with
  | nil => simp [value]
  | cons b bytes ih =>
    have hpow : Nat.pow 256 (bytes.length + 1) = Nat.pow 256 bytes.length * 256 := rfl
    have hvalue : value (b :: bytes) = b.toNat * Nat.pow 256 bytes.length + value bytes := by
      rw [value, List.foldl_cons, Nat.mul_zero, Nat.zero_add, ih]
    rw [List.foldl_cons, ih, hvalue, List.length_cons, hpow, Nat.add_mul, Nat.mul_comm 256 start,
      Nat.mul_assoc, Nat.mul_comm 256, Nat.add_assoc]

theorem value_cons (b : UInt8) (bytes : List UInt8) :
    value (b :: bytes) = b.toNat * Nat.pow 256 bytes.length + value bytes := by
  rw [value, List.foldl_cons, Nat.mul_zero, Nat.zero_add, foldl_value]

/-- The digits of a number write the part of it that fits their width. -/
theorem value_bigEndian (width n : Nat) : value (bigEndian width n) = n % Nat.pow 256 width := by
  induction width with
  | zero => simp [bigEndian, value, Nat.mod_one]
  | succ width ih =>
    have hpow : Nat.pow 256 (width + 1) = Nat.pow 256 width * 256 := rfl
    have hdigit : (n / Nat.pow 256 width).toUInt8.toNat = n / Nat.pow 256 width % 256 := by simp
    rw [bigEndian, value_cons, length_bigEndian, ih, hdigit, hpow, Nat.mod_mul, Nat.mul_comm, Nat.add_comm]

/-- The digits of a number are those of the number modulo what fits their width. -/
theorem value_put (k : Kind) (n : Int) : (value (put k n) : Int) = n % Nat.pow 256 k.width := by
  have hpos : (0 : Int) < Nat.pow 256 k.width := Int.natCast_pos.2 (Nat.pow_pos (by decide))
  have hnonneg := Int.emod_nonneg n (Int.ne_of_gt hpos)
  have hlt := Int.emod_lt_of_pos n hpos
  rw [put, value_bigEndian, Nat.mod_eq_of_lt (by omega), Int.toNat_of_nonneg hnonneg]

/-- A number of a kind is the one that its digits stand for. -/
theorem signed_value_put {k : Kind} {n : Int} (h : k.InRange n) : signed k (value (put k n)) = n := by
  obtain ⟨hlow, hhigh⟩ := h
  have hleast : -(Nat.pow 256 k.width : Int) ≤ k.least ∧ k.least ≤ 0 := by
    cases k <;> decide
  rw [signed, value_put]
  generalize (Nat.pow 256 k.width : Int) = p at hhigh hleast ⊢
  -- A number that is not negative is its own remainder, and any other is one period below it.
  by_cases hn : 0 ≤ n
  · rw [Int.emod_eq_of_lt hn (by omega), if_pos hhigh]
  · have hshift : n % p = n + p := by
      rw [← Int.add_emod_right, Int.emod_eq_of_lt (by omega) (by omega)]
    rw [hshift, if_neg (by omega)]
    omega

theorem value_lt (bytes : List UInt8) : value bytes < Nat.pow 256 bytes.length := by
  induction bytes with
  | nil => exact Nat.zero_lt_one
  | cons b bytes ih =>
    have hpow : Nat.pow 256 (bytes.length + 1) = Nat.pow 256 bytes.length * 256 := rfl
    have hbyte : b.toNat * Nat.pow 256 bytes.length ≤ 255 * Nat.pow 256 bytes.length :=
      Nat.mul_le_mul_right _ (Nat.le_of_lt_succ b.toNat_lt)
    rw [value_cons, List.length_cons, hpow]
    omega

/-- What stands above the digits does not show in them. -/
theorem bigEndian_mul_add (width m n : Nat) :
    bigEndian width (m * Nat.pow 256 width + n) = bigEndian width n := by
  induction width generalizing m n with
  | zero => rfl
  | succ width ih =>
    have hpos : 0 < Nat.pow 256 width := Nat.pow_pos (by decide)
    have hpow : m * Nat.pow 256 (width + 1) = m * 256 * Nat.pow 256 width := by
      change m * (Nat.pow 256 width * 256) = _
      rw [Nat.mul_comm (Nat.pow 256 width), Nat.mul_assoc]
    have hdigit : ((m * 256 * Nat.pow 256 width + n) / Nat.pow 256 width).toUInt8 =
        (n / Nat.pow 256 width).toUInt8 := by
      rw [Nat.add_comm, Nat.add_mul_div_right _ _ hpos, ← UInt8.toNat_inj]
      simp
    rw [hpow, bigEndian, hdigit, ih, bigEndian]

/-- Digits are those of the number that they write. -/
theorem bigEndian_value (bytes : List UInt8) : bigEndian bytes.length (value bytes) = bytes := by
  induction bytes with
  | nil => rfl
  | cons b bytes ih =>
    have hpos : 0 < Nat.pow 256 bytes.length := Nat.pow_pos (by decide)
    have hdigit : ((b.toNat * Nat.pow 256 bytes.length + value bytes) / Nat.pow 256 bytes.length).toUInt8 =
        b := by
      rw [Nat.add_comm, Nat.add_mul_div_right _ _ hpos, Nat.div_eq_of_lt (value_lt bytes), Nat.zero_add]
      simp
    rw [value_cons, List.length_cons, bigEndian, hdigit, bigEndian_mul_add, ih]

section Signed

variable {k : Kind} {n : Nat}

/-- The number that digits stand for is one of its kind. -/
theorem inRange_signed (h : n < Nat.pow 256 k.width) : k.InRange (signed k n) := by
  have hleast : k.least ≤ 0 ∧ 0 ≤ 2 * k.least + (Nat.pow 256 k.width : Int) := by cases k <;> decide
  unfold Kind.InRange signed
  split <;> omega

/-- The number that digits stand for has these digits. -/
theorem put_signed (h : n < Nat.pow 256 k.width) : put k (signed k n) = bigEndian k.width n := by
  have hmod : (signed k n % (Nat.pow 256 k.width : Nat)).toNat = n := by
    unfold signed
    split
    · rw [Int.emod_eq_of_lt (Int.natCast_nonneg n) (Int.ofNat_lt.2 h), Int.toNat_natCast]
    · rw [Int.sub_emod_right, Int.emod_eq_of_lt (Int.natCast_nonneg n) (Int.ofNat_lt.2 h),
        Int.toNat_natCast]
  rw [put, hmod]

end Signed

/-- What is read is a number of its kind, and what is taken are the bytes that it is written with. -/
theorem get_eq_ok_iff {k : Kind} {bytes rest : List UInt8} {n : Int} :
    get k bytes = (.ok n, rest) ↔ k.InRange n ∧ bytes = put k n ++ rest := by
  constructor
  · intro h
    rw [get_eq] at h
    split at h
    · next hlength =>
      cases h
      have hfront : (bytes.take k.width).length = k.width := List.length_take_of_le hlength
      have hvalue := value_lt (bytes.take k.width)
      have hdigits := bigEndian_value (bytes.take k.width)
      rw [hfront] at hvalue hdigits
      refine ⟨inRange_signed hvalue, ?_⟩
      rw [put_signed hvalue, hdigits, List.take_append_drop]
    · cases h
  · rintro ⟨hrange, rfl⟩
    have hlength : (put k n).length = k.width := length_put k n
    have htake : (put k n ++ rest).take k.width = put k n := by
      rw [← hlength, List.take_left]
    have hdrop : (put k n ++ rest).drop k.width = rest := by
      rw [← hlength, List.drop_left]
    rw [get_eq, if_pos (by simp [hlength]), htake, hdrop, signed_value_put hrange]

theorem get_eq_error_iff {k : Kind} {bytes rest : List UInt8} {cause : Truncated} :
    get k bytes = (.error cause, rest) ↔
      bytes.length < k.width ∧ cause = ⟨k, bytes.length⟩ ∧ rest = bytes := by
  rw [get_eq]
  by_cases h : k.width ≤ bytes.length
  · simp [h, Nat.not_lt.2 h]
  · simp [h, Nat.not_le.1 h, eq_comm]

theorem of_next {k : Kind} {bytes rest : List UInt8} {n : Int} (h : next k bytes = .ok (n, rest)) :
    k.InRange n ∧ bytes = put k n ++ rest := by
  rw [next] at h
  cases hread : (get k bytes).1 with
  | error cause =>
    rw [hread] at h
    cases h
  | ok found =>
    rw [hread] at h
    cases h
    exact get_eq_ok_iff.1 (Prod.ext hread rfl)

/-- A number that was written is read back, and what follows it is left. -/
theorem next_put {k : Kind} {n : Int} (h : k.InRange n) (rest : List UInt8) :
    next k (put k n ++ rest) = .ok (n, rest) := by
  rw [next, get_eq_ok_iff.2 ⟨h, rfl⟩]
  rfl

section Sequences

/-- A number with its kind. -/
inductive Item where
  | byte (n : UInt8)
  | int32 (n : Int32)
  | word64 (n : UInt64)

namespace Item

def kind : Item → Kind
  | .byte _ => .byte
  | .int32 _ => .int32
  | .word64 _ => .word64

def number : Item → Int
  | .byte n => n.toNat
  | .int32 n => n.toInt
  | .word64 n => n.toNat

theorem inRange (item : Item) : item.kind.InRange item.number := by
  cases item with
  | byte n =>
    have hlt := n.toNat_lt
    exact Kind.inRange_byte.2 ⟨Int.natCast_nonneg _, Int.ofNat_lt.2 hlt⟩
  | int32 n => exact Kind.inRange_int32.2 ⟨n.le_toInt, n.toInt_lt⟩
  | word64 n =>
    have hlt := n.toNat_lt
    exact Kind.inRange_word64.2 ⟨Int.natCast_nonneg _, Int.ofNat_lt.2 hlt⟩

/-- Every number of a kind is one of its type. -/
theorem exists_of_inRange {k : Kind} {n : Int} (h : k.InRange n) :
    ∃ item : Item, item.kind = k ∧ item.number = n := by
  cases k with
  | byte =>
    obtain ⟨hlow, hhigh⟩ := Kind.inRange_byte.1 h
    have hsize : n.toNat < UInt8.size := (Int.toNat_lt hlow).2 hhigh
    refine ⟨.byte (UInt8.ofNat n.toNat), rfl, ?_⟩
    rw [number, UInt8.toNat_ofNat_of_lt' hsize, Int.toNat_of_nonneg hlow]
  | int32 =>
    obtain ⟨hlow, hhigh⟩ := Kind.inRange_int32.1 h
    exact ⟨.int32 (Int32.ofInt n), rfl, Int32.toInt_ofInt_of_le hlow hhigh⟩
  | word64 =>
    obtain ⟨hlow, hhigh⟩ := Kind.inRange_word64.1 h
    have hsize : n.toNat < UInt64.size := (Int.toNat_lt hlow).2 hhigh
    refine ⟨.word64 (UInt64.ofNat n.toNat), rfl, ?_⟩
    rw [number, UInt64.toNat_ofNat_of_lt' hsize, Int.toNat_of_nonneg hlow]

end Item

/-- Writes numbers one after the other, behind what the buffer has. -/
def putAll (buffer : List UInt8) (items : List Item) : List UInt8 :=
  items.foldl (fun buffer item => buffer ++ put item.kind item.number) buffer

/-- Reads numbers one after the other, whether or not the reads before have failed. -/
def readAll : List Kind → List UInt8 → List (Except Truncated Int) × List UInt8
  | [], cursor => ([], cursor)
  | k :: kinds, cursor =>
    let (found, next) := get k cursor
    let (others, last) := readAll kinds next
    (found :: others, last)

theorem putAll_append (buffer before : List UInt8) (items : List Item) :
    putAll (buffer ++ before) items = buffer ++ putAll before items := by
  induction items generalizing before with
  | nil => rfl
  | cons item items ih =>
    simp only [putAll, List.foldl_cons, List.append_assoc] at ih ⊢
    exact ih _

theorem putAll_cons (item : Item) (items : List Item) :
    putAll [] (item :: items) = put item.kind item.number ++ putAll [] items := by
  rw [← putAll_append, List.append_nil]
  rfl

/-- Reads that all succeed find the numbers that the bytes they take are written with. -/
theorem readAll_eq_iff {kinds : List Kind} {cursor rest : List UInt8} {numbers : List Int} :
    readAll kinds cursor = (numbers.map .ok, rest) ↔
      ∃ items : List Item, items.map Item.kind = kinds ∧ items.map Item.number = numbers ∧
        cursor = putAll [] items ++ rest := by
  induction kinds generalizing cursor numbers with
  | nil =>
    simp only [readAll, List.map_eq_nil_iff, Prod.mk.injEq, exists_eq_left]
    cases numbers with
    | nil => simp [putAll]
    | cons n numbers => simp
  | cons k kinds ih =>
    constructor
    · intro h
      cases numbers with
      | nil => cases h
      | cons n numbers =>
        rw [readAll, List.map_cons, Prod.mk.injEq, List.cons.injEq] at h
        obtain ⟨⟨hfirst, hothers⟩, hlast⟩ := h
        obtain ⟨hrange, hcursor⟩ := get_eq_ok_iff.1 (Prod.ext hfirst rfl : get k cursor = (.ok n, _))
        obtain ⟨items, rfl, rfl, hrest⟩ := ih.1 (Prod.ext hothers hlast)
        obtain ⟨item, rfl, rfl⟩ := Item.exists_of_inRange hrange
        have htaken : putAll [] (item :: items) ++ rest =
            put item.kind item.number ++ (get item.kind cursor).2 := by
          rw [putAll_cons, List.append_assoc, ← hrest]
        exact ⟨item :: items, rfl, rfl, hcursor.trans htaken.symm⟩
    · rintro ⟨items, hkinds, rfl, rfl⟩
      cases items with
      | nil => cases hkinds
      | cons item items =>
        obtain ⟨rfl, rfl⟩ := List.cons.inj hkinds
        have hfirst : get item.kind (putAll [] (item :: items) ++ rest) =
            (.ok item.number, putAll [] items ++ rest) :=
          get_eq_ok_iff.2 ⟨item.inRange, by rw [putAll_cons, List.append_assoc]⟩
        have hothers := ih.2 ⟨items, rfl, rfl, rfl⟩
        simp only [readAll, hfirst, hothers, List.map_cons]

/-- Numbers are read back as they were written, whatever stands before and behind them; a read fails only
where too few bytes are left, and takes none; and reads that succeed take just the bytes that what they
find is written with. -/
theorem sequences_compose :
    (∀ (start trailing : List UInt8) (items : List Item),
      readAll (items.map Item.kind) ((putAll start items ++ trailing).drop start.length) =
        (items.map fun item => .ok item.number, trailing)) ∧
    (∀ (k : Kind) (cursor : List UInt8),
      ((∃ cause, (get k cursor).1 = .error cause) ↔ cursor.length < k.width) ∧
      (get k cursor = (.error ⟨k, cursor.length⟩, cursor) ↔ cursor.length < k.width)) ∧
    ∀ (kinds : List Kind) (cursor rest : List UInt8) (numbers : List Int),
      readAll kinds cursor = (numbers.map .ok, rest) ↔
        ∃ items : List Item, items.map Item.kind = kinds ∧ items.map Item.number = numbers ∧
          cursor = putAll [] items ++ rest := by
  refine ⟨?_, ?_, fun kinds cursor rest numbers => readAll_eq_iff⟩
  · intro start trailing items
    have hdrop : (putAll start items ++ trailing).drop start.length = putAll [] items ++ trailing := by
      have hstart := putAll_append start [] items
      rw [List.append_nil] at hstart
      rw [hstart, List.append_assoc, List.drop_left]
    rw [hdrop, readAll_eq_iff.2 ⟨items, rfl, rfl, rfl⟩, List.map_map]
    rfl
  · intro k cursor
    have hfails : get k cursor = (.error ⟨k, cursor.length⟩, cursor) ↔ cursor.length < k.width := by
      simp [get_eq_error_iff]
    refine ⟨⟨?_, fun h => ⟨_, congrArg Prod.fst (hfails.2 h)⟩⟩, hfails⟩
    rintro ⟨cause, hcause⟩
    exact (get_eq_error_iff.1 (Prod.ext hcause rfl : get k cursor = (.error cause, _))).1

end Sequences

end ColoredCtl.Wire

/-!
Big-endian integers in byte strings.

Three kinds of numbers travel: an unsigned byte, a signed 32-bit integer and an unsigned 64-bit
integer. Writing appends, reading takes from the front. A read that finds too few bytes fails and
takes nothing.
-/

namespace ColoredCtl.Wire

/-- The kinds of numbers on the wire. -/
inductive Kind where
  | byte
  | int32
  | word64
deriving DecidableEq, Repr

namespace Kind

/-- Number of bytes. -/
def width : Kind → Nat
  | .byte => 1
  | .int32 => 4
  | .word64 => 8

def text : Kind → String
  | .byte => "u8"
  | .int32 => "i32"
  | .word64 => "u64"

/-- The least number of the kind. -/
def least : Kind → Int
  | .int32 => -0x80000000
  | _ => 0

/-- The numbers of the kind: as many as its bytes can tell apart, from the least one on. -/
def InRange (k : Kind) (n : Int) : Prop := k.least ≤ n ∧ n < k.least + Nat.pow 256 k.width

end Kind

/-- A read that found too few bytes. -/
structure Truncated where
  kind : Kind
  available : Nat
deriving DecidableEq, Repr

def Truncated.message (e : Truncated) : String :=
  s!"truncated {e.kind.text}: need {e.kind.width} bytes, have {e.available}"

/-- The lowest `width` base-256 digits of a number, most significant first. -/
def bigEndian : (width : Nat) → Nat → List UInt8
  | 0, _ => []
  | width + 1, n => (n / Nat.pow 256 width).toUInt8 :: bigEndian width n

/-- The number that base-256 digits write. -/
def value (bytes : List UInt8) : Nat := bytes.foldl (fun n b => 256 * n + b.toNat) 0

/-- The bytes of a number; numbers out of range lose their high digits. -/
def put (k : Kind) (n : Int) : List UInt8 := bigEndian k.width (n % Nat.pow 256 k.width).toNat

/-- The number of the kind that is congruent to the digits read. -/
def signed (k : Kind) (n : Nat) : Int :=
  if (n : Int) < k.least + Nat.pow 256 k.width then n else n - Nat.pow 256 k.width

/-- Reads the number at the front, and gives the bytes that are left. A read that finds too few bytes takes
none of them. -/
def get (k : Kind) (bytes : List UInt8) : Except Truncated Int × List UInt8 :=
  let front := bytes.take k.width
  if front.length = k.width then (.ok (signed k (value front)), bytes.drop k.width)
  else (.error ⟨k, front.length⟩, bytes)

/-- Reads the number at the front, where nothing more is read after a failure. -/
def next (k : Kind) (bytes : List UInt8) : Except Truncated (Int × List UInt8) :=
  (get k bytes).1.map (·, (get k bytes).2)

@[simp] theorem length_bigEndian (width n : Nat) : (bigEndian width n).length = width := by
  induction width with
  | zero => rfl
  | succ width ih => simp [bigEndian, ih]

@[simp] theorem length_put (k : Kind) (n : Int) : (put k n).length = k.width :=
  length_bigEndian ..

/-- A read fails when there are fewer bytes than it takes, and tells how many there are. -/
theorem get_eq (k : Kind) (bytes : List UInt8) :
    get k bytes =
      if k.width ≤ bytes.length then
        (.ok (signed k (value (bytes.take k.width))), bytes.drop k.width)
      else (.error ⟨k, bytes.length⟩, bytes) := by
  by_cases h : k.width ≤ bytes.length
  · have hlength : (bytes.take k.width).length = k.width := by simp [Nat.min_eq_left h]
    simp only [get, hlength, if_true, if_pos h]
  · have htake : bytes.take k.width = bytes := List.take_of_length_le (by omega)
    have hne : bytes.length ≠ k.width := by omega
    simp only [get, htake, if_neg hne, if_neg h]

end ColoredCtl.Wire

import ColoredCtl.Color.Algebra

/-!
Frames: lists of states with color sets as byte strings.

A frame is the number of entries, then for each entry its state and its colors. Numbers are signed
32-bit integers, so there is a limit to states and to the number of entries. A frame has nothing
behind its last entry.
-/

namespace ColoredCtl

open Color

inductive FrameError where
  | tooManyEntries (count : Nat)
  | negativeCount (found : Int)
  | cannotFit (count : Int) (available : Nat)
  | negativeState (found : Int)
  | trailing (count : Nat)
deriving DecidableEq, Repr

def FrameError.message : FrameError → String
  | .tooManyEntries count => s!"{count} entries do not fit a frame"
  | .negativeCount found => s!"negative entry count {found}"
  | .cannotFit count available => s!"{count} entries cannot fit in {available} bytes"
  | .negativeState found => s!"negative state {found}"
  | .trailing count => s!"{count} trailing bytes"

inductive ChannelError where
  | shape (expected found : Nat)
  | noPeers (entries : Nat)
  | stateTooLarge (state : Nat)
  | frame (cause : FrameError)
  | aborted
  | algebra (cause : AlgebraError)
deriving DecidableEq, Repr

def ChannelError.message : ChannelError → String
  | .shape expected found => s!"outgoing payload has {found} destinations, expected {expected}"
  | .noPeers entries => s!"single-partition channel asked to send {entries} entries"
  | .stateTooLarge state => s!"state {state} does not fit the wire format"
  | .frame cause => "malformed frame: " ++ cause.message
  | .aborted => "exchange aborted by another partition"
  | .algebra cause => cause.message

/-- States with color sets, in the order in which they are sent. -/
abbrev Packet (C : Type) := List (Nat × C)

namespace Frame

variable {C : Type}

/-- Number of bytes of the frame of a packet. -/
def size (A : Algebra C) (packet : Packet C) : Nat :=
  packet.foldl (fun total (_, colors) => total + 4 + A.byteSize colors) 4

/-- The bytes of one entry. -/
def encodeEntry (A : Algebra C) (entry : Nat × C) : Except (Failure ChannelError) (List UInt8) := do
  if entry.1 < 0x80000000 then
    return Wire.put .int32 entry.1 ++ (← A.put entry.2)
  else throw (.error (.stateTooLarge entry.1))

/-- The frame of a packet. -/
def encode (A : Algebra C) (packet : Packet C) : Except (Failure ChannelError) (List UInt8) := do
  if packet.length < 0x80000000 then
    let entries ← packet.mapM (encodeEntry A)
    return Wire.put .int32 packet.length ++ entries.flatten
  else throw (.error (.frame (.tooManyEntries packet.length)))

/-- A failed read of colors or numbers. -/
def decodeFailed (cause : DecodeError) : ChannelError := .algebra (.decode cause)

/-- Reads a signed integer. -/
def getInt (bytes : List UInt8) : Except ChannelError (Int × List UInt8) :=
  (Wire.next .int32 bytes).mapError fun cause => decodeFailed (.truncated cause)

/-- Reads one entry. -/
def decodeEntry (A : Algebra C) (bytes : List UInt8) :
    Except ChannelError ((Nat × C) × List UInt8) := do
  let (state, rest) ← getInt bytes
  if state < 0 then throw (.frame (.negativeState state))
  let (colors, rest) ← (A.get rest).mapError decodeFailed
  return ((state.toNat, colors), rest)

/-- Reads a number of entries, behind the entries read before, the last of which comes first. -/
def decodeEntries (A : Algebra C) :
    (count : Nat) → (before : Packet C) → List UInt8 → Except ChannelError (Packet C × List UInt8)
  | 0, before, bytes => .ok (before.reverse, bytes)
  | count + 1, before, bytes =>
    match decodeEntry A bytes with
    | .error cause => .error cause
    | .ok (entry, rest) => decodeEntries A count (entry :: before) rest

/-- The packet of a frame. A number of entries that could not have a state each is refused before
any of them is read. -/
def decode (A : Algebra C) (bytes : List UInt8) : Except ChannelError (Packet C) := do
  let (count, rest) ← getInt bytes
  if count < 0 then throw (.frame (.negativeCount count))
  if (rest.length / 4 : Nat) < count then throw (.frame (.cannotFit count rest.length))
  let (entries, rest) ← decodeEntries A count.toNat [] rest
  if rest.isEmpty then return entries else throw (.frame (.trailing rest.length))

end Frame

end ColoredCtl

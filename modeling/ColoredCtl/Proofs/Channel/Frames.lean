import ColoredCtl.Proofs.Channel.Delivery
import ColoredCtl.Proofs.Color.Truth
import ColoredCtl.Proofs.Wire

/-!
Frames give back the packets that they were made of.

An algebra codes some of its values when it reads back what it has written for them, whatever follows.
Explicit color sets are coded word by word. A packet of coded values, with no more entries and no
greater states than a frame has room for, is then read back entry by entry.

Sets of more words than can be counted on the wire are garbled: what is written for them cannot be read.
So in no case is a frame read as a packet other than the one it was made of.
-/

namespace ColoredCtl

open Color

/-- The algebra reads back the values that it writes. -/
def Color.Algebra.Codes {C : Type} (A : Algebra C) (Good : C → Prop) : Prop :=
  ∀ a, Good a → ∃ bytes, A.put a = .ok bytes ∧ ∀ rest, A.get (bytes ++ rest) = .ok (a, rest)

/-- The algebra cannot read what it writes for the values. -/
def Color.Algebra.Garbles {C : Type} (A : Algebra C) (Good : C → Prop) : Prop :=
  ∀ a, Good a → ∃ bytes, A.put a = .ok bytes ∧ ∀ rest, ∃ cause, A.get (bytes ++ rest) = .error cause

namespace Color.ColorSet

/-- Words that were written are read back. -/
theorem getWords_put (ws before : List (BitVec 64)) (rest : List UInt8) :
    getWords ws.length before ((ws.flatMap fun w => Wire.put .word64 w.toNat) ++ rest) =
      .ok (before.reverse ++ ws, rest) := by
  induction ws generalizing before with
  | nil => simp [getWords]
  | cons w ws ih =>
    have hw : w.toNat < 0x10000000000000000 := w.isLt
    have hrange : Wire.Kind.InRange .word64 w.toNat := Wire.Kind.inRange_word64.2 (by omega)
    rw [List.flatMap_cons, List.append_assoc, List.length_cons, getWords, Wire.next_put hrange]
    simp only [Int.toNat_natCast, BitVec.ofNat_toNat, BitVec.setWidth_eq]
    rw [ih]
    simp

/-- The last word holds the members that come after those of all other words. -/
theorem contains_concat (front : List (BitVec 64)) (last : BitVec 64) {j : Nat} (hj : j < 64) :
    contains ⟨(front.concat last).toArray⟩ (64 * front.length + j) = last.getLsbD j := by
  have hdiv : (64 * front.length + j) / 64 = front.length := by omega
  have hmod : (64 * front.length + j) % 64 = j := by omega
  rw [contains_eq, hdiv, hmod]
  simp

/-- The test of the last word finds out whether all members are in the domain. -/
theorem tail_clear_iff {n : Nat} {ws : List (BitVec 64)} (hlength : ws.length = wordCount n) :
    ws.getLast?.any (fun w => w &&& ~~~Bits.tailMask n != 0#64) = false ↔
      ∀ c, contains ⟨ws.toArray⟩ c = true → c < n := by
  obtain rfl | ⟨front, last, rfl⟩ := List.eq_nil_or_concat ws
  · simp [contains]
  have hcount : front.length + 1 = (n + 63) / 64 := by simpa [wordCount] using hlength
  have htest : (front.concat last).getLast?.any (fun w => w &&& ~~~Bits.tailMask n != 0#64) = false ↔
      last &&& ~~~Bits.tailMask n = 0#64 := by
    simp
  rw [htest]
  constructor
  · intro hclear c hc
    have hlt := lt_of_contains hc
    simp only [List.size_toArray, List.length_concat] at hlt
    by_contra hout
    obtain ⟨j, rfl⟩ := Nat.exists_eq_add_of_le (show 64 * front.length ≤ c by omega)
    have hj : j < 64 := by omega
    rw [contains_concat front last hj] at hc
    have hmask : (Bits.tailMask n).getLsbD j = false := by
      rw [Bits.getLsbD_tailMask n hj]
      exact decide_eq_false (by omega)
    have hset : (last &&& ~~~Bits.tailMask n).getLsbD j = true := by
      rw [BitVec.getLsbD_and, BitVec.getLsbD_not, hc, hmask, decide_eq_true hj]
      rfl
    rw [hclear] at hset
    simp at hset
  · intro h
    refine BitVec.eq_of_getLsbD_eq fun j hj => ?_
    by_cases hset : last.getLsbD j = true
    · have hin := h _ ((contains_concat front last hj).trans hset)
      have hmask : (Bits.tailMask n).getLsbD j = true := by
        rw [Bits.getLsbD_tailMask n hj]
        exact decide_eq_true (by omega)
      simp [hmask]
    · simp [hset]

/-- Sets of the domain are read back, if the number of their words fits the wire. -/
theorem explicit_codes {n : Nat} (hn : wordCount n < 0x80000000) :
    (Algebra.explicit n).Codes (InDomain n) := by
  intro a ha
  have hcount := ha.size_eq
  have hrange : Wire.Kind.InRange .int32 a.words.size := Wire.Kind.inRange_int32.2 (by omega)
  have hlength : a.words.toList.length = wordCount n := by simpa using hcount
  have hclear := (tail_clear_iff hlength).2 ha.lt_of_contains
  refine ⟨a.put, ?_, fun rest => ?_⟩
  · simp [Algebra.explicit, ha.accept_eq, pure, Except.pure]
  · have hget := getWords_put a.words.toList [] rest
    rw [hlength, List.reverse_nil, List.nil_append] at hget
    change get n (a.put ++ rest) = _
    rw [get, put, List.append_assoc, Wire.next_put hrange, mapError_ok, ok_bind, hcount]
    simp only [ne_eq, not_true, if_false, hget, hclear, Bool.false_eq_true, ok_bind]
    rfl

/-- Sets with more words than can be counted on the wire are not read back. -/
theorem explicit_garbles {n : Nat} (hn : 0x80000000 ≤ wordCount n) :
    (Algebra.explicit n).Garbles (InDomain n) := by
  intro a ha
  refine ⟨a.put, by simp [Algebra.explicit, ha.accept_eq, pure, Except.pure], fun rest => ?_⟩
  change ∃ cause, get n (a.put ++ rest) = .error cause
  unfold get
  cases hread : Wire.next .int32 (a.put ++ rest) with
  | error cause => exact ⟨.truncated cause, rfl⟩
  | ok found =>
    obtain ⟨count, left⟩ := found
    have hlt : count < wordCount n := by
      have hbound := Wire.Kind.inRange_int32.1 (Wire.of_next hread).1
      omega
    refine ⟨.wordCount (wordCount n) count, ?_⟩
    simp only [mapError_ok, ok_bind, if_pos (Int.ne_of_lt hlt)]
    rfl

end Color.ColorSet

/-- Truth values are read back. -/
theorem Color.Algebra.truth_codes : Algebra.truth.Codes fun _ => True := by
  intro a _
  have hrange : Wire.Kind.InRange .byte (if a then 1 else 0) := by
    unfold Wire.Kind.InRange
    cases a <;> decide
  refine ⟨Wire.put .byte (if a then 1 else 0), rfl, fun rest => ?_⟩
  simp only [Algebra.truth, Wire.next_put hrange, mapError_ok, ok_bind]
  cases a <;> rfl

/-- The color sets of a domain are read back, or are too large for that. -/
theorem Color.Domain.codes_or_garbles (domain : Domain) :
    domain.algebra.Codes domain.reading.InDomain ∨ domain.algebra.Garbles domain.reading.InDomain := by
  cases domain with
  | truth => exact .inl Algebra.truth_codes
  | explicit n =>
    by_cases hn : ColorSet.wordCount n < 0x80000000
    · exact .inl (ColorSet.explicit_codes hn)
    · exact .inr (ColorSet.explicit_garbles (Nat.not_lt.1 hn))

namespace Frame

variable {C : Type} {A : Algebra C} {Good : C → Prop}

theorem getInt_put {n : Nat} (h : n < 0x80000000) (rest : List UInt8) :
    getInt (Wire.put .int32 n ++ rest) = .ok ((n : Int), rest) := by
  have hrange : Wire.Kind.InRange .int32 n := Wire.Kind.inRange_int32.2 (by omega)
  rw [getInt, Wire.next_put hrange, mapError_ok]

/-- Entries that were written are read back, and each of them takes room for a state. -/
theorem decodeEntries_encode (hA : A.Codes Good) {packet : Packet C}
    (hpacket : ∀ s a, (s, a) ∈ packet → s < 0x80000000 ∧ Good a) :
    ∃ codes, packet.mapM (encodeEntry A) = .ok codes ∧ 4 * packet.length ≤ codes.flatten.length ∧
      ∀ before rest, decodeEntries A packet.length before (codes.flatten ++ rest) =
        .ok (before.reverse ++ packet, rest) := by
  induction packet with
  | nil => exact ⟨[], rfl, by simp, by simp [decodeEntries]⟩
  | cons entry packet ih =>
    obtain ⟨s, a⟩ := entry
    obtain ⟨hs, ha⟩ := hpacket s a List.mem_cons_self
    obtain ⟨bytes, hput, hget⟩ := hA a ha
    obtain ⟨codes, hcodes, hroom, hdecode⟩ := ih fun t b hmem => hpacket t b (List.mem_cons_of_mem _ hmem)
    have hentry : encodeEntry A (s, a) = .ok (Wire.put .int32 s ++ bytes) := by
      rw [encodeEntry, if_pos hs, hput]
      rfl
    refine ⟨(Wire.put .int32 s ++ bytes) :: codes, by rw [List.mapM_cons, hentry, hcodes]; rfl, ?_, ?_⟩
    · have hwidth : (Wire.put .int32 s).length = 4 := Wire.length_put ..
      simp only [List.length_cons, List.flatten_cons, List.length_append, hwidth]
      omega
    · intro before rest
      have hread : decodeEntry A ((Wire.put .int32 s ++ bytes) ++ (codes.flatten ++ rest)) =
          .ok ((s, a), codes.flatten ++ rest) := by
        have hsign : ¬(s : Int) < 0 := by omega
        simp only [decodeEntry, List.append_assoc, getInt_put hs, ok_bind, if_neg hsign, hget, mapError_ok]
        rfl
      rw [List.flatten_cons, List.append_assoc, List.length_cons, decodeEntries, hread]
      simp only
      rw [hdecode]
      simp

/-- A packet that fits a frame is read back from it. -/
theorem decode_encode (hA : A.Codes Good) {packet : Packet C} (hlength : packet.length < 0x80000000)
    (hpacket : ∀ s a, (s, a) ∈ packet → s < 0x80000000 ∧ Good a) :
    ∃ bytes, encode A packet = .ok bytes ∧ decode A bytes = .ok packet := by
  obtain ⟨codes, hcodes, hroom, hdecode⟩ := decodeEntries_encode hA hpacket
  have hsign : ¬(packet.length : Int) < 0 := by omega
  have hfits : ¬((codes.flatten.length / 4 : Nat) : Int) < packet.length := by omega
  have hentries := hdecode [] []
  rw [List.append_nil] at hentries
  refine ⟨Wire.put .int32 packet.length ++ codes.flatten, ?_, ?_⟩
  · rw [encode, if_pos hlength, hcodes]
    rfl
  · simp only [decode, getInt_put hlength, ok_bind, if_neg hsign, if_neg hfits, Int.toNat_natCast, hentries]
    rfl

/-- The computation fails only because something cannot be read. -/
abbrev Misreads {α : Type} (x : Except ChannelError α) : Prop := FailsOnly ChannelError.OfReading x

theorem misreads_getInt (bytes : List UInt8) : Misreads (getInt bytes) := by
  intro cause hcause
  unfold getInt at hcause
  cases hread : Wire.next .int32 bytes with
  | error truncated =>
    rw [hread] at hcause
    cases hcause
    trivial
  | ok found =>
    rw [hread] at hcause
    cases hcause

theorem misreads_decodeEntry (bytes : List UInt8) : Misreads (decodeEntry A bytes) := by
  refine (misreads_getInt bytes).bind ?_
  rintro ⟨state, rest⟩
  by_cases hsign : state < 0
  · simp only [if_pos hsign]
    change Misreads (.error (.frame (.negativeState state)))
    exact FailsOnly.of_error trivial
  · simp only [if_neg hsign]
    refine .bind ?_ fun value => FailsOnly.of_ok _
    cases A.get rest with
    | error cause => exact FailsOnly.of_error trivial
    | ok value => exact FailsOnly.of_ok value

theorem misreads_decodeEntries (count : Nat) (before : Packet C) (bytes : List UInt8) :
    Misreads (decodeEntries A count before bytes) := by
  induction count generalizing before bytes with
  | zero => exact FailsOnly.of_ok _
  | succ count ih =>
    unfold decodeEntries
    split
    · next cause hcause => exact FailsOnly.of_error (misreads_decodeEntry bytes cause hcause)
    · exact ih _ _

/-- Reading a frame fails only because it cannot be read. -/
theorem misreads_decode (bytes : List UInt8) : Misreads (decode A bytes) := by
  refine (misreads_getInt bytes).bind ?_
  rintro ⟨count, rest⟩
  by_cases hsign : count < 0
  · simp only [if_pos hsign]
    change Misreads (.error (.frame (.negativeCount count)))
    exact FailsOnly.of_error trivial
  simp only [if_neg hsign]
  by_cases hroom : (rest.length / 4 : Nat) < count
  · simp only [if_pos hroom]
    change Misreads (.error (.frame (.cannotFit count rest.length)))
    exact FailsOnly.of_error trivial
  simp only [if_neg hroom]
  refine (misreads_decodeEntries _ _ _).bind ?_
  rintro ⟨entries, left⟩
  by_cases hleft : left.isEmpty = true
  · simp only [if_pos hleft]
    exact FailsOnly.of_ok entries
  · simp only [if_neg hleft]
    change Misreads (.error (.frame (.trailing left.length)))
    exact FailsOnly.of_error trivial

/-- The computation fails only because something cannot be written or read. -/
abbrev Blames {α : Type} (x : Except ChannelError α) : Prop := FailsOnly ChannelError.OfWire x

theorem blames_decode (bytes : List UInt8) : Blames (decode A bytes) :=
  fun cause hcause => (misreads_decode bytes cause hcause).ofWire

/-- The bytes that travel for a packet, if there is a frame for it. -/
def written (A : Algebra C) (packet : Packet C) : List UInt8 :=
  match encode A packet with
  | .ok bytes => bytes
  | .error _ => []

/-- A packet of values that are garbled is not read back, if it has an entry. -/
theorem decode_of_garbles (hA : A.Garbles Good) {s : Nat} {a : C} {rest : Packet C}
    (hlength : ((s, a) :: rest).length < 0x80000000)
    (hpacket : ∀ t b, (t, b) ∈ (s, a) :: rest → t < 0x80000000 ∧ Good b) :
    ∃ bytes cause, encode A ((s, a) :: rest) = .ok bytes ∧ decode A bytes = .error cause := by
  obtain ⟨hs, ha⟩ := hpacket s a List.mem_cons_self
  obtain ⟨first, hfirst, hget⟩ := hA a ha
  obtain ⟨codes, hcodes, _⟩ := mapM_spec (P := fun _ _ => True) (f := encodeEntry A) (l := rest)
    fun x hx => by
      obtain ⟨ht, hb⟩ := hpacket x.1 x.2 (List.mem_cons_of_mem _ hx)
      obtain ⟨bytes, hbytes, _⟩ := hA x.2 hb
      exact ⟨_, by rw [encodeEntry, if_pos ht, hbytes]; rfl, trivial⟩
  have hentry : encodeEntry A (s, a) = .ok (Wire.put .int32 s ++ first) := by
    rw [encodeEntry, if_pos hs, hfirst]
    rfl
  have hencode : encode A ((s, a) :: rest) = .ok (Wire.put .int32 ((s, a) :: rest).length ++
      ((Wire.put .int32 s ++ first) ++ codes.flatten)) := by
    rw [encode, if_pos hlength, List.mapM_cons, hentry, hcodes]
    rfl
  obtain ⟨cause, hcause⟩ := hget codes.flatten
  have hread : decodeEntry A ((Wire.put .int32 s ++ first) ++ codes.flatten) =
      .error (decodeFailed cause) := by
    have hsign : ¬(s : Int) < 0 := by omega
    simp only [decodeEntry, List.append_assoc, getInt_put hs, ok_bind, if_neg hsign, hcause]
    rfl
  have hsign : ¬(((s, a) :: rest).length : Int) < 0 := by omega
  refine ⟨_, exists_and_left.2 ⟨hencode, ?_⟩⟩
  simp only [decode, getInt_put hlength, ok_bind, if_neg hsign]
  by_cases hroom : ((((Wire.put .int32 s ++ first) ++ codes.flatten).length / 4 : Nat) : Int) <
      ((s, a) :: rest).length
  · simp only [if_pos hroom]
    exact ⟨_, rfl⟩
  · simp only [if_neg hroom]
    simp only [Int.toNat_natCast, List.length_cons, decodeEntries, hread]
    exact ⟨_, rfl⟩

/-- The packet has no more entries and no greater states than a frame has room for. -/
def Fits (packet : Packet C) : Prop :=
  packet.length < 0x80000000 ∧ ∀ s a, (s, a) ∈ packet → s < 0x80000000

/-- A packet that does not fit has no frame. -/
theorem encode_of_not_fits (hput : ∀ a, Good a → ∃ bytes, A.put a = .ok bytes) {packet : Packet C}
    (hpacket : ∀ s a, (s, a) ∈ packet → Good a) (hfits : ¬Fits packet) :
    ∃ cause, encode A packet = .error cause ∧ cause.OfWire := by
  unfold encode
  by_cases hlength : packet.length < 0x80000000
  · rw [if_pos hlength]
    choose! bytes hbytes using hput
    obtain hcodes | ⟨cause, hcause, hwire⟩ := mapM_eq_ok_or_error (P := Failure.OfWire) (l := packet)
      (f := encodeEntry A) (g := fun x => Wire.put .int32 x.1 ++ bytes x.2) fun x hx => by
        unfold encodeEntry
        split
        · exact .inl (by rw [hbytes x.2 (hpacket x.1 x.2 hx)]; rfl)
        · exact .inr ⟨_, rfl, _, rfl, trivial⟩
    · refine absurd ⟨hlength, fun s a hmem => ?_⟩ hfits
      obtain ⟨code, hcode⟩ := of_mapM_eq_ok hcodes (s, a) hmem
      by_contra hs
      rw [encodeEntry, if_neg hs] at hcode
      cases hcode
    · exact ⟨cause, by rw [hcause]; rfl, hwire⟩
  · rw [if_neg hlength]
    exact ⟨_, rfl, _, rfl, trivial⟩

/-- A packet is read back from its frame, unless it cannot be written or read. -/
theorem attempts_framed (hA : A.Codes Good ∨ A.Garbles Good) :
    (Carrier.framed A).Attempts (written A) fun packet => ∀ s a, (s, a) ∈ packet → Good a := by
  intro packet hpacket
  have hread : ∀ bytes, (Carrier.framed A).unpack bytes = .ok packet ∨
      (∃ cause, decode A bytes = .error cause) → (Carrier.framed A).unpack bytes = .ok packet ∨
        ∃ cause, (Carrier.framed A).unpack bytes = .error cause ∧ cause.OfWire := by
    rintro bytes (hok | ⟨cause, hcause⟩)
    · exact .inl hok
    · refine .inr ⟨.error cause, ?_, cause, rfl, blames_decode bytes cause hcause⟩
      simp only [Carrier.framed, hcause]
      rfl
  by_cases hfits : Fits packet
  · have hentries : ∀ s a, (s, a) ∈ packet → s < 0x80000000 ∧ Good a :=
      fun s a hmem => ⟨hfits.2 s a hmem, hpacket s a hmem⟩
    have hframe : ∃ bytes, encode A packet = .ok bytes ∧
        (decode A bytes = .ok packet ∨ ∃ cause, decode A bytes = .error cause) := by
      obtain hcodes | hgarbles := hA
      · obtain ⟨bytes, hencode, hdecode⟩ := decode_encode hcodes hfits.1 hentries
        exact ⟨bytes, hencode, .inl hdecode⟩
      · cases packet with
        | nil =>
          have hnothing : A.Codes fun _ => False := fun _ h => h.elim
          obtain ⟨bytes, hencode, hdecode⟩ := decode_encode hnothing hfits.1 (by simp)
          exact ⟨bytes, hencode, .inl hdecode⟩
        | cons entry rest =>
          obtain ⟨bytes, cause, hencode, hdecode⟩ := decode_of_garbles hgarbles hfits.1 hentries
          exact ⟨bytes, hencode, .inr ⟨cause, hdecode⟩⟩
    obtain ⟨bytes, hencode, hdecode⟩ := hframe
    have hwritten : written A packet = bytes := by rw [written, hencode]
    rw [hwritten]
    exact ⟨.inl hencode, hread bytes (hdecode.imp_left lift_eq_ok_iff.2)⟩
  · have hput : ∀ a, Good a → ∃ bytes, A.put a = .ok bytes := by
      intro a ha
      obtain hcodes | hgarbles := hA
      · exact (hcodes a ha).imp fun _ h => h.1
      · exact (hgarbles a ha).imp fun _ h => h.1
    obtain ⟨cause, hencode, hwire⟩ := encode_of_not_fits hput hpacket hfits
    have hwritten : written A packet = [] := by rw [written, hencode]
    rw [hwritten]
    exact ⟨.inr ⟨cause, hencode, hwire⟩, hread [] (.inr ⟨_, rfl⟩)⟩

end Frame

/-- Packets that fit a frame can travel as frames, if the values in them are read back. -/
theorem Carrier.framed_restores {C : Type} {A : Algebra C} {Good : C → Prop} (hA : A.Codes Good)
    {Fits : Packet C → Prop}
    (hfits : ∀ packet, Fits packet → packet.length < 0x80000000 ∧
      ∀ s a, (s, a) ∈ packet → s < 0x80000000 ∧ Good a) :
    ∃ packed, (Carrier.framed A).Restores packed Fits := by
  choose! packed hpack hunpack using fun packet (h : Fits packet) =>
    Frame.decode_encode hA (hfits packet h).1 (hfits packet h).2
  exact ⟨packed, fun packet h => ⟨hpack packet h, lift_eq_ok_iff.2 (hunpack packet h)⟩⟩

/-- Endpoints that read back each other's frames deliver the packets that fit a frame. -/
theorem Medium.framed_carries {C : Type} {A : Algebra C} {Good : C → Prop} (hA : A.Codes Good) (K : Nat)
    {Fits : Packet C → Prop}
    (hfits : ∀ packet, Fits packet → packet.length < 0x80000000 ∧
      ∀ s a, (s, a) ∈ packet → s < 0x80000000 ∧ Good a) :
    (Medium.framed (List.replicate K A)).Carries K Fits := by
  obtain ⟨packed, hrestores⟩ := Carrier.framed_restores hA hfits
  intro out hout
  refine ⟨delivery out, ?_, delivered_delivery out⟩
  rw [Medium.round, List.map_replicate]
  exact hrestores.meet_eq hout.length_eq hout.good

/-- Endpoints that write and read frames deliver, unless what they send cannot be written or read. -/
theorem Medium.framed_attempts {C : Type} {A : Algebra C} {Good : C → Prop}
    (hA : A.Codes Good ∨ A.Garbles Good) (K : Nat) :
    (Medium.framed (List.replicate K A)).Attempts K fun packet => ∀ s a, (s, a) ∈ packet → Good a := by
  intro out hout
  obtain ⟨results, hmeet, hconcludes⟩ := (Frame.attempts_framed hA).meet_spec hout
  refine ⟨delivery out, results, ?_, delivered_delivery out, hconcludes⟩
  rw [Medium.round, List.map_replicate]
  exact hmeet

end ColoredCtl

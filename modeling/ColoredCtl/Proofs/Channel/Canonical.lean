import ColoredCtl.Proofs.Channel.Frames

namespace ColoredCtl

open Color

/-- The algebra reads back what it writes, and what it reads it writes again, in as many bytes as it tells. -/
structure Color.Algebra.Canonical {C : Type} (A : Algebra C) (Good : C → Prop) : Prop where
  codes : A.Codes Good
  of_get : ∀ {bytes rest a}, A.get bytes = .ok (a, rest) →
    Good a ∧ ∃ front, A.put a = .ok front ∧ bytes = front ++ rest
  length_put : ∀ {a bytes}, A.put a = .ok bytes → bytes.length = A.byteSize a

namespace Color.ColorSet

theorem length_putWords (ws : List (BitVec 64)) :
    (ws.flatMap fun w => Wire.put .word64 w.toNat).length = 8 * ws.length := by
  induction ws with
  | nil => rfl
  | cons w ws ih =>
    have hword : (Wire.put .word64 w.toNat).length = 8 := Wire.length_put ..
    rw [List.flatMap_cons, List.length_append, ih, hword, List.length_cons]
    omega

/-- Words that are read were written, behind those read before. -/
theorem of_getWords {count : Nat} {before ws : List (BitVec 64)} {bytes rest : List UInt8}
    (h : getWords count before bytes = .ok (ws, rest)) :
    ∃ new, ws = before.reverse ++ new ∧ new.length = count ∧
      bytes = (new.flatMap fun w => Wire.put .word64 w.toNat) ++ rest := by
  induction count generalizing before bytes with
  | zero =>
    cases h
    exact ⟨[], by simp, rfl, rfl⟩
  | succ count ih =>
    rw [getWords] at h
    split at h
    · cases h
    · next w left hread =>
      obtain ⟨hrange, hbytes⟩ := Wire.of_next hread
      obtain ⟨new, hws, hlength, hleft⟩ := ih h
      have hw := Wire.Kind.inRange_word64.1 hrange
      have hcast : (((BitVec.ofNat 64 w.toNat).toNat : Nat) : Int) = w := by
        rw [BitVec.toNat_ofNat, Nat.mod_eq_of_lt (by omega)]
        exact Int.toNat_of_nonneg hw.1
      refine ⟨.ofNat 64 w.toNat :: new, by simp [hws], by simp [hlength], ?_⟩
      rw [List.flatMap_cons, hcast, List.append_assoc, ← hleft, hbytes]

/-- A set that is read is one of the domain and was written. -/
theorem of_get {n : Nat} {bytes rest : List UInt8} {a : ColorSet} (h : get n bytes = .ok (a, rest)) :
    a.InDomain n ∧ bytes = a.put ++ rest := by
  obtain ⟨⟨count, left⟩, hcount, h⟩ := bind_eq_ok_iff.1 h
  obtain ⟨_, hbytes⟩ := Wire.of_next (mapError_eq_ok_iff.1 hcount)
  by_cases hsame : count ≠ wordCount n
  · simp only [if_pos hsame] at h
    cases h
  simp only [if_neg hsame] at h
  obtain ⟨⟨ws, left⟩, hread, h⟩ := bind_eq_ok_iff.1 h
  obtain ⟨new, hws, hlength, hleft⟩ := of_getWords hread
  obtain rfl : ws = new := by simpa using hws
  cases hclear : ws.getLast?.any (fun w => w &&& ~~~Bits.tailMask n != 0#64) with
  | true =>
    simp only [hclear, if_pos] at h
    cases h
  | false =>
    simp only [hclear, Bool.false_eq_true, if_false] at h
    cases h
    refine ⟨⟨by simpa using hlength, (tail_clear_iff hlength).1 hclear⟩, ?_⟩
    rw [put, List.size_toArray, hlength, ← Decidable.not_not.1 hsame, List.append_assoc, ← hleft, hbytes]

end Color.ColorSet

/-- Sets of the domain are written again as they were read, if the number of their words fits the wire. -/
theorem Color.ColorSet.explicit_canonical {n : Nat} (hn : wordCount n < 0x80000000) :
    (Algebra.explicit n).Canonical (InDomain n) where
  codes := explicit_codes hn
  of_get {bytes rest a} h := by
    obtain ⟨ha, hbytes⟩ := of_get h
    exact ⟨ha, a.put, by simp [Algebra.explicit, ha.accept_eq, pure, Except.pure], hbytes⟩
  length_put {a bytes} h := by
    obtain ⟨_, _, h⟩ := bind_eq_ok_iff.1 h
    cases h
    have hcount : (Wire.put .int32 a.words.size).length = 4 := Wire.length_put ..
    rw [put, List.length_append, length_putWords, hcount, Array.length_toList]
    rfl

/-- Truth values are written again as they were read. -/
theorem Color.Algebra.truth_canonical : Algebra.truth.Canonical fun _ => True where
  codes := truth_codes
  of_get {bytes rest a} h := by
    obtain ⟨⟨n, left⟩, hread, h⟩ := bind_eq_ok_iff.1 h
    obtain ⟨_, hbytes⟩ := Wire.of_next (mapError_eq_ok_iff.1 hread)
    refine ⟨trivial, _, rfl, ?_⟩
    by_cases hzero : n = 0
    · simp only [if_pos hzero] at h
      cases h
      exact hzero ▸ hbytes
    by_cases hone : n = 1
    · simp only [if_neg hzero, if_pos hone] at h
      cases h
      exact hone ▸ hbytes
    · simp only [if_neg hzero, if_neg hone] at h
      cases h
  length_put {a bytes} h := by
    cases h
    exact Wire.length_put ..

namespace Frame

variable {C : Type} {A : Algebra C} {Good : C → Prop} {packet : Packet C} {bytes rest : List UInt8}

/-- An entry that is read was written, and fits a frame. -/
theorem of_decodeEntry (hA : A.Canonical Good) {entry : Nat × C}
    (h : decodeEntry A bytes = .ok (entry, rest)) :
    entry.1 < 0x80000000 ∧ Good entry.2 ∧ ∃ front, encodeEntry A entry = .ok front ∧ bytes = front ++ rest := by
  obtain ⟨⟨state, left⟩, hstate, h⟩ := bind_eq_ok_iff.1 h
  obtain ⟨hrange, hbytes⟩ := Wire.of_next (mapError_eq_ok_iff.1 hstate)
  by_cases hsign : state < 0
  · simp only [if_pos hsign] at h
    cases h
  simp only [if_neg hsign] at h
  obtain ⟨⟨colors, left⟩, hcolors, h⟩ := bind_eq_ok_iff.1 h
  cases h
  obtain ⟨hgood, front, hput, hleft⟩ := hA.of_get (mapError_eq_ok_iff.1 hcolors)
  have hcast : ((state.toNat : Nat) : Int) = state := Int.toNat_of_nonneg (by omega)
  have hfits : state.toNat < 0x80000000 := by
    have hlt := (Wire.Kind.inRange_int32.1 hrange).2
    omega
  refine ⟨hfits, hgood, Wire.put .int32 state ++ front, ?_, ?_⟩
  · rw [encodeEntry, if_pos hfits, hput, hcast]
    rfl
  · rw [hbytes, hleft, List.append_assoc]

/-- Entries that are read were written, behind those read before. -/
theorem of_decodeEntries (hA : A.Canonical Good) {count : Nat} {before : Packet C}
    (h : decodeEntries A count before bytes = .ok (packet, rest)) :
    ∃ new codes, packet = before.reverse ++ new ∧ new.length = count ∧
      (∀ s a, (s, a) ∈ new → s < 0x80000000 ∧ Good a) ∧
      new.mapM (encodeEntry A) = .ok codes ∧ bytes = codes.flatten ++ rest := by
  induction count generalizing before bytes with
  | zero =>
    cases h
    exact ⟨[], [], by simp, rfl, by simp, rfl, rfl⟩
  | succ count ih =>
    rw [decodeEntries] at h
    split at h
    · cases h
    · next entry left hread =>
      obtain ⟨hstate, hgood, front, hfront, hbytes⟩ := of_decodeEntry hA hread
      obtain ⟨new, codes, hpacket, hlength, hnew, hcodes, hleft⟩ := ih h
      refine ⟨entry :: new, front :: codes, by simp [hpacket], by simp [hlength], ?_, ?_, ?_⟩
      · intro s a hmem
        obtain rfl | hmem := List.mem_cons.1 hmem
        · exact ⟨hstate, hgood⟩
        · exact hnew s a hmem
      · rw [List.mapM_cons, hfront, hcodes]
        rfl
      · rw [List.flatten_cons, List.append_assoc, ← hleft, hbytes]

/-- Entries that are read take room for a state each. -/
theorem le_of_decodeEntries (hA : A.Canonical Good) {count : Nat}
    (h : decodeEntries A count [] bytes = .ok (packet, rest)) : 4 * count ≤ bytes.length := by
  obtain ⟨new, codes, _, hlength, hnew, hcodes, hbytes⟩ := of_decodeEntries hA h
  obtain ⟨codes', hcodes', hroom, _⟩ := decodeEntries_encode hA.codes hnew
  cases hcodes.symm.trans hcodes'
  rw [hbytes, List.length_append]
  omega

/-- A frame that is read is the frame of the packet that is read. -/
theorem of_decode (hA : A.Canonical Good) (h : decode A bytes = .ok packet) :
    (∀ s a, (s, a) ∈ packet → Good a) ∧ encode A packet = .ok bytes := by
  obtain ⟨⟨count, left⟩, hcount, h⟩ := bind_eq_ok_iff.1 h
  obtain ⟨hrange, hbytes⟩ := Wire.of_next (mapError_eq_ok_iff.1 hcount)
  by_cases hsign : count < 0
  · simp only [if_pos hsign] at h
    cases h
  by_cases hroom : (left.length / 4 : Nat) < count
  · simp only [if_neg hsign, if_pos hroom] at h
    cases h
  simp only [if_neg hsign, if_neg hroom] at h
  obtain ⟨⟨entries, trailing⟩, hentries, h⟩ := bind_eq_ok_iff.1 h
  by_cases hempty : trailing.isEmpty = true
  · simp only [if_pos hempty] at h
    cases h
    obtain ⟨new, codes, hnew, hlength, hgood, hcodes, hleft⟩ := of_decodeEntries hA hentries
    obtain rfl : packet = new := by simpa using hnew
    have hcast : (packet.length : Int) = count := by omega
    have hfits : packet.length < 0x80000000 := by
      have hlt := (Wire.Kind.inRange_int32.1 hrange).2
      omega
    refine ⟨fun s a hmem => (hgood s a hmem).2, ?_⟩
    rw [encode, if_pos hfits, hcodes, hbytes, hleft, List.isEmpty_iff.1 hempty, List.append_nil, ← hcast]
    rfl
  · simp only [if_neg hempty] at h
    cases h

theorem length_encodeEntry (hA : A.Canonical Good) {entry : Nat × C}
    (h : encodeEntry A entry = .ok bytes) : bytes.length = 4 + A.byteSize entry.2 := by
  unfold encodeEntry at h
  split at h
  · obtain ⟨colors, hcolors, h⟩ := bind_eq_ok_iff.1 h
    cases h
    have hwidth : (Wire.put .int32 entry.1).length = 4 := Wire.length_put ..
    rw [List.length_append, hwidth, hA.length_put (liftM_eq_ok_iff.1 hcolors)]
  · cases h

theorem foldl_size (hA : A.Canonical Good) {codes : List (List UInt8)}
    (h : packet.mapM (encodeEntry A) = .ok codes) (start : Nat) :
    packet.foldl (fun total (_, colors) => total + 4 + A.byteSize colors) start =
      start + codes.flatten.length := by
  induction packet generalizing codes start with
  | nil =>
    cases h
    rfl
  | cons entry packet ih =>
    rw [List.mapM_cons] at h
    obtain ⟨front, hfront, h⟩ := bind_eq_ok_iff.1 h
    obtain ⟨codes, hcodes, h⟩ := bind_eq_ok_iff.1 h
    cases h
    have hlength := length_encodeEntry hA hfront
    simp only [List.foldl_cons, ih hcodes, List.flatten_cons, List.length_append]
    omega

/-- A frame has as many bytes as is told beforehand. -/
theorem length_encode (hA : A.Canonical Good) (h : encode A packet = .ok bytes) :
    bytes.length = size A packet := by
  unfold encode at h
  split at h
  · obtain ⟨codes, hcodes, h⟩ := bind_eq_ok_iff.1 h
    cases h
    have hwidth : (Wire.put .int32 packet.length).length = 4 := Wire.length_put ..
    rw [size, foldl_size hA hcodes, List.length_append, hwidth]
  · cases h

/-- A packet has a frame exactly if it fits one. -/
theorem encode_eq_ok_iff (hA : A.Codes Good) (hpacket : ∀ s a, (s, a) ∈ packet → Good a) :
    (∃ bytes, encode A packet = .ok bytes) ↔ Fits packet := by
  constructor
  · rintro ⟨bytes, hbytes⟩
    by_contra hfits
    obtain ⟨cause, hcause, _⟩ := encode_of_not_fits (fun a ha => (hA a ha).imp fun _ h => h.1) hpacket hfits
    rw [hcause] at hbytes
    cases hbytes
  · intro hfits
    obtain ⟨bytes, hbytes, _⟩ :=
      decode_encode hA hfits.1 fun s a hmem => ⟨hfits.2 s a hmem, hpacket s a hmem⟩
    exact ⟨bytes, hbytes⟩

theorem decode_of_encode (hA : A.Codes Good) (hpacket : ∀ s a, (s, a) ∈ packet → Good a)
    (h : encode A packet = .ok bytes) : decode A bytes = .ok packet := by
  have hfits := (encode_eq_ok_iff hA hpacket).1 ⟨bytes, h⟩
  obtain ⟨bytes', hencode, hdecode⟩ :=
    decode_encode hA hfits.1 fun s a hmem => ⟨hfits.2 s a hmem, hpacket s a hmem⟩
  cases h.symm.trans hencode
  exact hdecode

end Frame

namespace Color.Domain

/-- The number of words of a color set can be written. -/
def WordsFit : Domain → Prop
  | .truth => True
  | .explicit n => ColorSet.wordCount n < 0x80000000

instance : DecidablePred WordsFit
  | .truth => .isTrue trivial
  | .explicit n => inferInstanceAs (Decidable (ColorSet.wordCount n < 0x80000000))

theorem canonical {domain : Domain} (h : domain.WordsFit) :
    domain.algebra.Canonical domain.reading.InDomain := by
  cases domain with
  | truth => exact Algebra.truth_canonical
  | explicit n => exact ColorSet.explicit_canonical h

end Color.Domain

namespace Frame

end Frame

end ColoredCtl

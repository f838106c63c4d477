import ColoredCtl.Channel.Medium
import ColoredCtl.Proofs.Outcome
import Mathlib.Data.List.FinRange

namespace ColoredCtl

variable {C T : Type} {K : Nat}

namespace Exchange

/-- There is a place for each pair of partners exactly where there are not too many of them. -/
theorem reserve_eq_ok_iff {count : Nat} : reserve count = .ok () ↔ count < 0x20000000 := by
  rw [reserve, bind_eq_ok_iff]
  constructor
  · rintro ⟨_, hproduct, hroom⟩
    obtain ⟨rfl, _⟩ := Word.mul_eq_ok_iff.1 hproduct
    by_contra hge
    have hsquare := Nat.mul_le_mul (Nat.le_of_not_lt hge) (Nat.le_of_not_lt hge)
    exact absurd (hsquare.trans (Capacity.reserve_eq_ok_iff.1 hroom)) (by decide)
  · intro h
    have hsquare := Nat.mul_lt_mul'' h h
    refine ⟨_, Word.mul_eq_ok_iff.2 ⟨rfl, hsquare.trans (by decide)⟩, Capacity.reserve_eq_ok_iff.2 ?_⟩
    exact Nat.le_of_lt_succ (hsquare.trans_le (by decide))

theorem column_ofFn (rows : Fin K → Row T) (destination : Nat) :
    column (List.ofFn rows) destination =
      (List.finRange K).filterMap fun i => (rows i)[destination]?.join := by
  rw [column, List.ofFn_eq_map, List.filterMap_map]
  rfl

theorem mem_column {rows : Fin K → Row T} {destination : Nat} {payload : T} :
    payload ∈ column (List.ofFn rows) destination ↔
      ∃ i, (rows i)[destination]? = some (some payload) := by
  rw [column_ofFn, List.mem_filterMap]
  simp [Option.join_eq_some_iff]

theorem mem_row_of_mem_column {rows : Fin K → Row T} {destination : Nat} {payload : T}
    (h : payload ∈ column (List.ofFn rows) destination) : ∃ i, some payload ∈ rows i := by
  obtain ⟨i, hi⟩ := mem_column.1 h
  exact ⟨i, List.mem_of_getElem? hi⟩

theorem anySent_ofFn (rows : Fin K → Row T) :
    anySent (List.ofFn rows) = true ↔ ∃ i payload, some payload ∈ rows i := by
  simp only [anySent, List.any_eq_true, List.mem_ofFn, Option.isSome_iff_exists]
  constructor
  · rintro ⟨_, ⟨i, rfl⟩, _, hmem, payload, rfl⟩
    exact ⟨i, payload, hmem⟩
  · rintro ⟨i, payload, hmem⟩
    exact ⟨_, ⟨i, rfl⟩, _, hmem, payload, rfl⟩

/-- What each partner gets, told by its number. -/
theorem deliver_ofFn (rows : Fin K → Row T) :
    deliver (List.ofFn rows) = List.ofFn fun i : Fin K =>
      if anySent (List.ofFn rows) then some (column (List.ofFn rows) i) else none := by
  apply List.ext_getElem
  · by_cases hsent : anySent (List.ofFn rows) = true <;> simp [deliver, hsent, columns_eq]
  · intro i hi _
    by_cases hsent : anySent (List.ofFn rows) = true <;> simp [deliver, hsent, columns_eq]

/-- A round in which all partners bring their rows. -/
theorem round_ofFn (rows : Fin K → Row T) :
    round false (List.ofFn fun i => some (rows i)) = some (deliver (List.ofFn rows)) := by
  rw [round, mapM_ofFn (f := id) fun i => rfl]
  rfl

end Exchange

/-- What the endpoints receive is what was sent to them. -/
structure Delivered (out : Fin K → Outgoing C) (incoming : Fin K → Incoming C) : Prop where
  getD_eq : ∀ i : Fin K, (incoming i).getD [] = (Exchange.column (List.ofFn out) i).flatten
  isSome_eq : ∀ i, (incoming i).isSome = Exchange.anySent (List.ofFn out)

namespace Delivered

variable {out : Fin K → Outgoing C} {incoming : Fin K → Incoming C}

theorem mem_iff (h : Delivered out incoming) {i : Fin K} {entry : Nat × C} :
    entry ∈ (incoming i).getD [] ↔ ∃ j packet, (out j)[(i : Nat)]? = some (some packet) ∧ entry ∈ packet := by
  rw [h.getD_eq, List.mem_flatten]
  constructor
  · rintro ⟨packet, hpacket, hentry⟩
    obtain ⟨j, hj⟩ := Exchange.mem_column.1 hpacket
    exact ⟨j, packet, hj, hentry⟩
  · rintro ⟨j, packet, hj, hentry⟩
    exact ⟨packet, Exchange.mem_column.2 ⟨j, hj⟩, hentry⟩

/-- What is sent determines what is received. -/
theorem unique {incoming' : Fin K → Incoming C} (h : Delivered out incoming)
    (h' : Delivered out incoming') : incoming = incoming' := by
  funext i
  have hentries : (incoming i).getD [] = (incoming' i).getD [] := (h.getD_eq i).trans (h'.getD_eq i).symm
  have hsome : (incoming i).isSome = (incoming' i).isSome := (h.isSome_eq i).trans (h'.isSome_eq i).symm
  revert hentries hsome
  cases incoming i <;> cases incoming' i <;> simp

end Delivered

/-- What all endpoints bring to a round: a packet of the right kind, or nothing, for each endpoint,
and nothing for themselves. -/
structure Brings (K : Nat) (Good : Packet C → Prop) (out : Fin K → Outgoing C) : Prop where
  length_eq : ∀ i, (out i).length = K
  self : ∀ i : Fin K, (out i)[(i : Nat)]? = some none
  good : ∀ {i packet}, some packet ∈ out i → Good packet

theorem Brings.good_of_column {Good : Packet C → Prop} {out : Fin K → Outgoing C} (h : Brings K Good out)
    {i : Fin K} {packet : Packet C} (hpacket : packet ∈ Exchange.column (List.ofFn out) i) : Good packet := by
  obtain ⟨j, hj⟩ := Exchange.mem_row_of_mem_column hpacket
  exact h.good hj

/-- Rounds over the medium succeed and deliver, for packets of the right kind. -/
def Medium.Carries (medium : Medium C) (K : Nat) (Good : Packet C → Prop) : Prop :=
  ∀ out : Fin K → Outgoing C, Brings K Good out →
    ∃ incoming, medium.round false (List.ofFn fun i => some (out i)) =
      List.ofFn (fun i => .ok (incoming i)) ∧ Delivered out incoming

theorem Medium.Carries.round_eq {medium : Medium C} {Good : Packet C → Prop} (h : medium.Carries K Good)
    {out : Fin K → Outgoing C} {incoming : Fin K → Incoming C} (hout : Brings K Good out)
    (hdelivered : Delivered out incoming) :
    medium.round false (List.ofFn fun i => some (out i)) = List.ofFn fun i => .ok (incoming i) := by
  obtain ⟨received, hround, hreceived⟩ := h out hout
  rw [hdelivered.unique hreceived]
  exact hround

/-- The errors of endpoints that cannot write or read what travels. -/
def ChannelError.OfWire : ChannelError → Prop
  | .stateTooLarge _ | .frame _ | .algebra _ => True
  | .shape _ _ | .noPeers _ | .aborted => False

/-- The errors of endpoints that cannot read what travels. -/
def ChannelError.OfReading : ChannelError → Prop
  | .frame (.tooManyEntries _) => False
  | .frame _ | .algebra _ => True
  | .shape _ _ | .noPeers _ | .stateTooLarge _ | .aborted => False

theorem ChannelError.OfReading.ofWire {cause : ChannelError} (h : cause.OfReading) : cause.OfWire := by
  cases cause with
  | stateTooLarge _ | frame _ | algebra _ => trivial
  | shape _ _ | noPeers _ | aborted => exact h

/-- How a round ends: the endpoints receive what was sent to them; or one of them cannot write or read
it, and then the others may be told that the round was aborted. -/
structure Concludes (incoming : Fin K → Incoming C)
    (results : Fin K → Except (Failure ChannelError) (Incoming C)) : Prop where
  each : ∀ i, results i = .ok (incoming i) ∨
    ∃ cause, results i = .error (.error cause) ∧ (cause = .aborted ∨ cause.OfWire)
  blame : (∀ i, results i = .ok (incoming i)) ∨
    ∃ i cause, results i = .error (.error cause) ∧ cause.OfWire

/-- A round in which everybody takes part ends well, or fails for those that cannot read. -/
theorem Concludes.of_each {incoming : Fin K → Incoming C}
    {results : Fin K → Except (Failure ChannelError) (Incoming C)}
    (h : ∀ i, results i = .ok (incoming i) ∨
      ∃ cause, results i = .error (.error cause) ∧ cause.OfWire) : Concludes incoming results where
  each i := (h i).imp_right fun ⟨cause, herror, hwire⟩ => ⟨cause, herror, .inr hwire⟩
  blame := by
    by_cases hfailed : ∃ i cause, results i = .error (.error cause) ∧ cause.OfWire
    · exact .inr hfailed
    · exact .inl fun i => (h i).resolve_right fun herror => hfailed ⟨i, herror⟩

/-- Rounds over the medium deliver packets of the right kind, unless they cannot be written or read. -/
def Medium.Attempts (medium : Medium C) (K : Nat) (Good : Packet C → Prop) : Prop :=
  ∀ out : Fin K → Outgoing C, Brings K Good out →
    ∃ incoming results, medium.round false (List.ofFn fun i => some (out i)) = List.ofFn results ∧
      Delivered out incoming ∧ Concludes incoming results

theorem Medium.Carries.attempts {medium : Medium C} {Good : Packet C → Prop} (h : medium.Carries K Good) :
    medium.Attempts K Good := by
  intro out hout
  obtain ⟨incoming, hround, hdelivered⟩ := h out hout
  exact ⟨incoming, fun i => .ok (incoming i), hround, hdelivered, fun i => .inl rfl, .inl fun i => rfl⟩

/-- What each endpoint receives, told by what was sent. -/
def delivery (out : Fin K → Outgoing C) (i : Fin K) : Incoming C :=
  if Exchange.anySent (List.ofFn out) then some (Exchange.column (List.ofFn out) i).flatten else none

theorem delivered_delivery (out : Fin K → Outgoing C) : Delivered out (delivery out) where
  getD_eq i := by
    unfold delivery
    split
    · rfl
    · next hany =>
      have hnone : Exchange.column (List.ofFn out) i = [] := by
        rw [List.eq_nil_iff_forall_not_mem]
        intro packet hpacket
        obtain ⟨j, hj⟩ := Exchange.mem_row_of_mem_column hpacket
        exact hany ((Exchange.anySent_ofFn out).2 ⟨j, packet, hj⟩)
      rw [hnone]
      rfl
  isSome_eq i := by
    unfold delivery
    split <;> simp [*]

section Carriers

variable {carrier : Carrier C T} {packed : Packet C → T} {Good : Packet C → Prop}
  {out : Fin K → Outgoing C}

theorem replicate_eq_ofFn {α : Type} (a : α) : List.replicate K a = List.ofFn fun _ : Fin K => a :=
  (List.ofFn_const K a).symm

/-- A round between endpoints that all can pack what they send, each in its own way. -/
theorem meet_ofFn_of_prepared {carriers : Fin K → Carrier C T} {rows : Fin K → Exchange.Row T}
    (hrows : ∀ i, (carriers i).prepare K (out i) = .ok (rows i)) :
    meet (List.ofFn carriers) false (List.ofFn fun i => some (out i)) = List.ofFn fun i : Fin K =>
      (carriers i).accept (if Exchange.anySent (List.ofFn rows) then
        some (Exchange.column (List.ofFn rows) i) else none) := by
  simp only [meet, List.zip, zipWith_ofFn, List.map_ofFn, List.length_ofFn, Function.comp_def,
    Option.map_some, hrows, takePart]
  rw [Exchange.round_ofFn, Exchange.deliver_ofFn]
  simp only [zipWith_ofFn, List.map_ofFn, Function.comp_def]

/-- A round between endpoints that all can pack what they send. -/
theorem meet_of_prepared {rows : Fin K → Exchange.Row T}
    (hrows : ∀ i, carrier.prepare K (out i) = .ok (rows i)) :
    meet (List.replicate K carrier) false (List.ofFn fun i => some (out i)) = List.ofFn fun i : Fin K =>
      carrier.accept (if Exchange.anySent (List.ofFn rows) then
        some (Exchange.column (List.ofFn rows) i) else none) := by
  rw [replicate_eq_ofFn]
  exact meet_ofFn_of_prepared hrows

/-- What an endpoint is told of a round in which somebody refuses what it should send. -/
def refusal {α : Type} : Except (Failure ChannelError) α → Failure ChannelError
  | .error cause => cause
  | .ok _ => .error .aborted

/-- A round does not take place when an endpoint refuses what it should send. -/
theorem meet_of_refused {i : Fin K} {cause : Failure ChannelError}
    (hrefused : carrier.prepare K (out i) = .error cause) :
    meet (List.replicate K carrier) false (List.ofFn fun j => some (out j)) =
      List.ofFn fun j => .error (refusal (carrier.prepare K (out j))) := by
  have hround : Exchange.round false
      (List.ofFn fun j => takePart (some (carrier.prepare K (out j)))) = none := by
    have habsent : none ∈ List.ofFn fun j => takePart (some (carrier.prepare K (out j))) :=
      List.mem_ofFn.2 ⟨i, by rw [hrefused]; rfl⟩
    rw [Exchange.round, if_neg Bool.false_ne_true, Option.map_eq_none_iff]
    exact mapM_eq_none habsent rfl
  simp only [meet, replicate_eq_ofFn, List.zip, zipWith_ofFn, List.map_ofFn, List.length_ofFn,
    Function.comp_def, Option.map_some]
  rw [hround]
  refine congrArg List.ofFn (funext fun j => ?_)
  cases carrier.prepare K (out j) <;> rfl

/-- The packets of an endpoint arrive packed as they are sent. -/
theorem packed_rows (packed : Packet C → T) (out : Fin K → Outgoing C) :
    (Exchange.anySent (List.ofFn fun i => (out i).map (Option.map packed)) =
        Exchange.anySent (List.ofFn out)) ∧
      ∀ i, Exchange.column (List.ofFn fun i => (out i).map (Option.map packed)) i =
        (Exchange.column (List.ofFn out) i).map packed := by
  constructor
  · rw [Bool.eq_iff_iff, Exchange.anySent_ofFn, Exchange.anySent_ofFn]
    simp
  · intro i
    rw [Exchange.column_ofFn, Exchange.column_ofFn, List.map_filterMap]
    apply List.filterMap_congr
    intro j _
    rw [List.getElem?_map]
    cases (out j)[i]? <;> rfl

/-- The failure is that of an endpoint that cannot write or read what travels. -/
def Failure.OfWire (failure : Failure ChannelError) : Prop :=
  ∃ cause, failure = .error cause ∧ cause.OfWire

/-- The carrier gives back the packets that it was given. -/
def Carrier.Restores (carrier : Carrier C T) (packed : Packet C → T) (Good : Packet C → Prop) : Prop :=
  ∀ packet, Good packet → carrier.pack packet = .ok (packed packet) ∧
    carrier.unpack (packed packet) = .ok packet

/-- The carrier gives back the packets that it was given, unless it cannot write or read them. -/
def Carrier.Attempts (carrier : Carrier C T) (packed : Packet C → T) (Good : Packet C → Prop) : Prop :=
  ∀ packet, Good packet →
    (carrier.pack packet = .ok (packed packet) ∨
      ∃ cause, carrier.pack packet = .error cause ∧ cause.OfWire) ∧
    (carrier.unpack (packed packet) = .ok packet ∨
      ∃ cause, carrier.unpack (packed packet) = .error cause ∧ cause.OfWire)

theorem Carrier.Restores.prepare_eq (h : carrier.Restores packed Good) {out : Outgoing C}
    (hlength : out.length = K) (hgood : ∀ packet, some packet ∈ out → Good packet) :
    carrier.prepare K out = .ok (out.map (Option.map packed)) := by
  rw [Carrier.prepare, if_neg (by simp [hlength])]
  apply mapM_eq_ok
  intro packet hpacket
  cases packet with
  | none => rfl
  | some packet =>
    simp only [(h packet (hgood packet hpacket)).1, ok_bind]
    rfl

theorem Carrier.Restores.accept_eq (h : carrier.Restores packed Good) {parts : List (Packet C)}
    (hgood : ∀ packet ∈ parts, Good packet) :
    carrier.accept (some (parts.map packed)) = .ok (some parts.flatten) := by
  have hparts : (parts.map packed).mapM carrier.unpack = .ok parts := by
    rw [List.mapM_map]
    have hid := mapM_eq_ok (g := id) fun packet hpacket => (h packet (hgood packet hpacket)).2
    rw [List.map_id] at hid
    exact hid
  rw [Carrier.accept, hparts]
  rfl

/-- A round between endpoints with the same kind of carrier delivers. -/
theorem Carrier.Restores.meet_eq (h : carrier.Restores packed Good) (hlength : ∀ i, (out i).length = K)
    (hgood : ∀ {i packet}, some packet ∈ out i → Good packet) :
    meet (List.replicate K carrier) false (List.ofFn fun i => some (out i)) =
      List.ofFn fun i => .ok (delivery out i) := by
  obtain ⟨hsent, hcolumn⟩ := packed_rows packed out
  rw [meet_of_prepared fun i => h.prepare_eq (hlength i) fun _ hpacket => hgood hpacket]
  simp only [hsent, hcolumn]
  refine congrArg List.ofFn (funext fun i => ?_)
  unfold delivery
  split
  · refine h.accept_eq fun packet hpacket => ?_
    obtain ⟨j, hj⟩ := Exchange.mem_row_of_mem_column hpacket
    exact hgood hj
  · rfl

namespace Carrier.Attempts

theorem prepare_eq (h : carrier.Attempts packed Good) {out : Outgoing C} (hlength : out.length = K)
    (hgood : ∀ packet, some packet ∈ out → Good packet) :
    carrier.prepare K out = .ok (out.map (Option.map packed)) ∨
      ∃ cause, carrier.prepare K out = .error cause ∧ cause.OfWire := by
  rw [Carrier.prepare, if_neg (by simp [hlength])]
  refine mapM_eq_ok_or_error fun packet hpacket => ?_
  cases packet with
  | none => exact .inl rfl
  | some packet =>
    obtain hpack | ⟨cause, hpack, hcause⟩ := (h packet (hgood packet hpacket)).1
    · exact .inl (by simp only [hpack]; rfl)
    · exact .inr ⟨cause, by simp only [hpack]; rfl, hcause⟩

theorem accept_eq (h : carrier.Attempts packed Good) {parts : List (Packet C)}
    (hgood : ∀ packet ∈ parts, Good packet) :
    carrier.accept (some (parts.map packed)) = .ok (some parts.flatten) ∨
      ∃ cause, carrier.accept (some (parts.map packed)) = .error cause ∧ cause.OfWire := by
  have hparts : (parts.map packed).mapM carrier.unpack = .ok (parts.map id) ∨
      ∃ cause, (parts.map packed).mapM carrier.unpack = .error cause ∧ cause.OfWire := by
    rw [List.mapM_map]
    exact mapM_eq_ok_or_error fun packet hpacket => (h packet (hgood packet hpacket)).2
  rw [Carrier.accept]
  obtain hparts | ⟨cause, hparts, hcause⟩ := hparts
  · rw [List.map_id] at hparts
    exact .inl (by rw [hparts]; rfl)
  · exact .inr ⟨cause, by rw [hparts]; rfl, hcause⟩

/-- A round between endpoints with the same kind of carrier delivers, or fails at an endpoint that cannot
write or read. -/
theorem meet_spec (h : carrier.Attempts packed Good) (hout : Brings K Good out) :
    ∃ results, meet (List.replicate K carrier) false (List.ofFn fun i => some (out i)) =
      List.ofFn results ∧ Concludes (delivery out) results := by
  have hprepare := fun i => h.prepare_eq (hout.length_eq i) fun _ hpacket => hout.good hpacket
  by_cases hrefused : ∃ i cause, carrier.prepare K (out i) = .error cause
  · obtain ⟨i, cause, hcause⟩ := hrefused
    refine ⟨_, meet_of_refused hcause, fun j => .inr ?_, .inr ?_⟩
    · obtain hrow | ⟨_, herror, cause, rfl, hwire⟩ := hprepare j
      · exact ⟨.aborted, by rw [hrow]; rfl, .inl rfl⟩
      · exact ⟨cause, by rw [herror]; rfl, .inr hwire⟩
    · obtain hrow | ⟨_, herror, cause, rfl, hwire⟩ := hprepare i
      · cases hrow.symm.trans hcause
      · exact ⟨i, cause, by rw [herror]; rfl, hwire⟩
  · have hrows : ∀ i, carrier.prepare K (out i) = .ok ((out i).map (Option.map packed)) := by
      intro i
      obtain hrow | ⟨cause, herror, _⟩ := hprepare i
      · exact hrow
      · exact absurd ⟨i, cause, herror⟩ hrefused
    obtain ⟨hsent, hcolumn⟩ := packed_rows packed out
    rw [meet_of_prepared hrows]
    simp only [hsent, hcolumn]
    refine ⟨_, rfl, .of_each fun i => ?_⟩
    unfold delivery
    split
    · obtain hok | ⟨_, herror, cause, rfl, hwire⟩ :=
        h.accept_eq fun packet hpacket => hout.good_of_column (i := i) hpacket
      · exact .inl hok
      · exact .inr ⟨cause, herror, hwire⟩
    · exact .inl rfl

end Carrier.Attempts

end Carriers

/-- Packets of all kinds can travel as they are. -/
theorem Carrier.plain_restores (Good : Packet C → Prop) :
    (Carrier.plain : Carrier C (Packet C)).Restores (fun packet => packet) Good :=
  fun _ _ => ⟨rfl, rfl⟩

theorem Medium.shared_carries (Good : Packet C → Prop) : (Medium.shared K).Carries K Good := by
  intro out hout
  exact ⟨delivery out, (Carrier.plain_restores Good).meet_eq hout.length_eq hout.good, delivered_delivery out⟩

/-- The only endpoint has nobody to send to, so that nothing has to be carried. -/
theorem Medium.solo_carries (Good : Packet C → Prop) : (Medium.solo : Medium C).Carries 1 Good := by
  intro out hout
  have honly : out 0 = [none] := by
    have hlength := hout.length_eq 0
    have hself := hout.self 0
    obtain ⟨packet, hpacket⟩ := List.length_eq_one_iff.1 hlength
    rw [hpacket] at hself ⊢
    cases hself
    rfl
  refine ⟨fun _ => none, ?_, ?_, ?_⟩
  · simp [Medium.round, honly, Medium.alone, Outgoing.size]
  · intro i
    obtain rfl : i = 0 := Subsingleton.elim i 0
    simp [Exchange.column, honly]
  · intro i
    simp [Exchange.anySent, honly]

end ColoredCtl

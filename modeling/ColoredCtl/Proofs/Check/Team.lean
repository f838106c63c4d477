import ColoredCtl.Proofs.Channel.Delivery
import ColoredCtl.Proofs.Check.Crew
import ColoredCtl.Proofs.Check.Staging

/-!
A team: one worker for each partition of a model.

The rounds of a team come in two forms. The workers exchange what they have staged for each other;
or each of them sends the same packet to all others, and then all of them know all packets. How packets
travel is no matter here: a round is what the workers send, together with what is then delivered to them.
-/

namespace ColoredCtl

open Color

variable {C : Type} {A : Algebra C}

/-- What a worker may send: entries in order, all for states of the same owner. -/
structure Sendable (R : Reading A) (n : Nat) (owner : Nat → Nat) (packet : Packet C) : Prop where
  inOrder : InOrder packet
  entry : ∀ {s a}, (s, a) ∈ packet → s < n ∧ R.InDomain a
  owner_eq : ∃ k, ∀ {s a}, (s, a) ∈ packet → owner s = k

/-- What a round is for. -/
inductive Purpose where
  /-- Values are sent to the owners of their states. -/
  | push
  /-- The owners of states make the values there known to others. -/
  | tell
deriving DecidableEq

/-- The workers of the partitions of a model. -/
structure Team (R : Reading A) (M : Model C) (S : Nat → Kripke) (K : Nat) where
  strategy : Strategy
  localSet : Fin K → StateSet
  count_pos : 0 < K
  serves : M.Serves R S
  proper : ∀ i : Fin K, (Partition.nth strategy K M.stateCount i).Proper
  localSet_count : ∀ i, (localSet i).stateCount = M.stateCount
  mem_localSet : ∀ i s, (localSet i).contains s = true ↔
    s < M.stateCount ∧ (Partition.nth strategy K M.stateCount i).owner s = i

namespace Team

variable {R : Reading A} {M : Model C} {S : Nat → Kripke} {K : Nat} (T : Team R M S K)

/-- The worker of a state. -/
def owner (s : Nat) : Nat := (Partition.nth T.strategy K M.stateCount 0).owner s

/-- One of the workers. -/
@[reducible] def ctx (i : Fin K) : Context C where
  algebra := A
  model := M
  partition := Partition.nth T.strategy K M.stateCount i
  localSet := T.localSet i

theorem owns_iff {i : Fin K} {s : Nat} : (T.ctx i).Owns s ↔ s < M.stateCount ∧ T.owner s = i :=
  Iff.rfl

theorem ready (i : Fin K) : (T.ctx i).Ready R S where
  serves := T.serves
  stateCount_eq := rfl
  proper := T.proper i
  localSet_count := T.localSet_count i
  mem_localSet := T.mem_localSet i

/-- Every state has a worker. -/
theorem exists_owns {s : Nat} (hs : s < M.stateCount) : ∃ i, (T.ctx i).Owns s :=
  ⟨⟨T.owner s, (T.ready ⟨0, T.count_pos⟩).owner_lt hs⟩, hs, rfl⟩

/-- A round of the team: packets that can be sent are delivered. What is pushed comes to the owners of
its states. -/
structure Round (purpose : Purpose) (out : Fin K → Outgoing C) (incoming : Fin K → Incoming C) :
    Prop where
  brings : Brings K (Sendable R M.stateCount T.owner) out
  delivered : Delivered out incoming
  home : purpose = .push → ∀ {i s a}, (s, a) ∈ (incoming i).getD [] → (T.ctx i).Owns s

theorem Round.tell {purpose : Purpose} {out : Fin K → Outgoing C} {incoming : Fin K → Incoming C}
    (h : T.Round purpose out incoming) : T.Round .tell out incoming :=
  ⟨h.brings, h.delivered, fun heq => by cases heq⟩

theorem Round.held {purpose : Purpose} {medium : Medium C}
    (h : medium.Carries K (Sendable R M.stateCount T.owner)) : Crew.Held (T.Round purpose) medium :=
  fun _ _ hround => h.round_eq hround.brings hround.delivered

/-- The crew of the team comes to results by rounds with a purpose, and they are as stated. -/
abbrev EndsBy {α : Type} (purpose : Purpose) (w : Fin K → Worker C α) (Q : (Fin K → α) → Prop) : Prop :=
  Crew.Ends (T.Round purpose) w Q

/-- The crew of the team comes to results, and they are as stated. -/
abbrev Ends {α : Type} (w : Fin K → Worker C α) (Q : (Fin K → α) → Prop) : Prop := T.EndsBy .tell w Q

theorem EndsBy.tell {T : Team R M S K} {α : Type} {purpose : Purpose} {w : Fin K → Worker C α}
    {Q : (Fin K → α) → Prop} (h : T.EndsBy purpose w Q) : T.Ends w Q := by
  obtain ⟨r, hyields, hr⟩ := h
  exact ⟨r, hyields.mono fun _ _ => Round.tell T, hr⟩

/-- The maps of the workers together show a family of sets. -/
abbrev Shows (P : Nat → Set Nat) (m : Fin K → StateMap C) : Prop := ∀ i, (T.ctx i).Shows R P (m i)

/-- The maps of the workers together show a family of sets, and have no empty values. -/
abbrev Lists (P : Nat → Set Nat) (m : Fin K → StateMap C) : Prop :=
  ∀ i, (m i).Shows R M.stateCount (fun s => ∃ c, (T.ctx i).Owns s ∧ c ∈ R.palette ∧ s ∈ P c)
    fun s c => (T.ctx i).Owns s ∧ c ∈ R.palette ∧ s ∈ P c

theorem Lists.shows {T : Team R M S K} {P : Nat → Set Nat} {m : Fin K → StateMap C} (h : T.Lists P m) :
    T.Shows P m := by
  intro i
  refine ⟨(h i).fits, ?_, (h i).mem_iff⟩
  intro s hs
  obtain ⟨c, howns, _⟩ := (h i).within hs
  exact howns

section Exchange

/-- A round of packets that can be sent succeeds and delivers. -/
theorem round_spec {out : Fin K → Outgoing C} (hout : Brings K (Sendable R M.stateCount T.owner) out) :
    T.Ends (fun i => Worker.exchange (out i)) (Delivered out) := by
  obtain ⟨incoming, _, hdelivered⟩ := Medium.shared_carries _ out hout
  exact ⟨incoming, .meet ⟨hout, hdelivered, by simp⟩ (.done incoming), hdelivered⟩

/-- The workers have received what was staged for them. -/
structure Received (staging : Fin K → Staging C) (incoming : Fin K → Incoming C) : Prop where
  delivered : Delivered (fun i => (staging i).outgoing) incoming
  entry : ∀ {i s a}, (s, a) ∈ (incoming i).getD [] →
    s < M.stateCount ∧ R.InDomain a ∧ ∃ j, ((staging j).colorsFor R i s).Nonempty
  mem_iff : ∀ {i s c}, (∃ a, (s, a) ∈ (incoming i).getD [] ∧ c ∈ R.colors a) ↔
    ∃ j, c ∈ (staging j).colorsFor R i s
  none_iff : ∀ i, incoming i = none ↔ ∀ j k s, (staging j).colorsFor R k s = ∅

/-- The workers of the states that something is staged for are those that it is staged for; or else those
that have staged it, to tell others. -/
def OneOwner (purpose : Purpose) (staging : Fin K → Staging C) : Prop :=
  (∀ i j s, ((staging i).colorsFor R j s).Nonempty → T.owner s = j) ∨
    purpose = .tell ∧ ∀ i j s, ((staging i).colorsFor R j s).Nonempty → T.owner s = i

theorem received_of_delivered {staging : Fin K → Staging C}
    (hfits : ∀ i, (staging i).Fits R M.stateCount K i) {incoming : Fin K → Incoming C}
    (hdelivered : Delivered (fun i => (staging i).outgoing) incoming) :
    Received (R := R) (M := M) staging incoming where
  delivered := hdelivered
  entry {i s a} hmem := by
    obtain ⟨j, packet, hpacket, hentry⟩ := hdelivered.mem_iff.1 hmem
    have hlisted := (hfits j).listed_of_outgoing hpacket
    obtain ⟨hs, hnonempty⟩ := hlisted.within hentry
    exact ⟨hs, hlisted.inDomain hentry, j, hnonempty⟩
  mem_iff {i s c} := by
    constructor
    · rintro ⟨a, hmem, hc⟩
      obtain ⟨j, packet, hpacket, hentry⟩ := hdelivered.mem_iff.1 hmem
      exact ⟨j, ((hfits j).listed_of_outgoing hpacket).mem_iff.1 ⟨a, hentry, hc⟩⟩
    · rintro ⟨j, hc⟩
      obtain ⟨packet, hpacket⟩ := Staging.exists_packet hc
      obtain ⟨a, hentry, hca⟩ := ((hfits j).listed_of_outgoing hpacket).mem_iff.2 hc
      exact ⟨a, hdelivered.mem_iff.2 ⟨j, packet, hpacket, hentry⟩, hca⟩
  none_iff i := by
    rw [← Option.not_isSome_iff_eq_none, hdelivered.isSome_eq, Exchange.anySent_ofFn]
    constructor
    · intro hnone j k s
      rw [← Finset.not_nonempty_iff_eq_empty]
      rintro ⟨c, hc⟩
      obtain ⟨packet, hpacket⟩ := Staging.exists_packet hc
      exact hnone ⟨j, packet, List.mem_of_getElem? hpacket⟩
    · rintro hempty ⟨j, packet, hpacket⟩
      obtain ⟨k, hk⟩ := List.getElem?_of_mem hpacket
      have hlisted := (hfits j).listed_of_outgoing hk
      cases packet with
      | nil => exact Staging.ne_nil_of_outgoing hk rfl
      | cons entry rest =>
        obtain ⟨_, hnonempty⟩ := hlisted.within (List.mem_cons_self (a := (entry.1, entry.2)))
        rw [hempty j k] at hnonempty
        exact Finset.not_nonempty_empty hnonempty

/-- There is a round in which the workers exchange what they have staged. -/
theorem exists_round {purpose : Purpose} {staging : Fin K → Staging C}
    (hfits : ∀ i, (staging i).Fits R M.stateCount K i) (howner : T.OneOwner purpose staging) :
    ∃ incoming, T.Round purpose (fun i => (staging i).outgoing) incoming ∧
      Received (R := R) (M := M) staging incoming := by
  have hbrings : Brings K (Sendable R M.stateCount T.owner) fun i => (staging i).outgoing := by
    refine ⟨fun i => (hfits i).length_outgoing, fun i => (hfits i).outgoing_self, ?_⟩
    intro i packet hpacket
    obtain ⟨j, hj⟩ := List.getElem?_of_mem hpacket
    have hlisted := (hfits i).listed_of_outgoing hj
    refine ⟨hlisted.inOrder, fun hentry => ⟨(hlisted.within hentry).1, hlisted.inDomain hentry⟩, ?_⟩
    obtain hdestination | ⟨_, hsender⟩ := howner
    · exact ⟨j, fun hentry => hdestination i j _ (hlisted.within hentry).2⟩
    · exact ⟨i, fun hentry => hsender i j _ (hlisted.within hentry).2⟩
  obtain ⟨incoming, _, hdelivered⟩ := Medium.shared_carries _ _ hbrings
  have hreceived := received_of_delivered (R := R) (M := M) hfits hdelivered
  refine ⟨incoming, ⟨hbrings, hdelivered, fun hpush i s a hentry => ?_⟩, hreceived⟩
  obtain ⟨hs, _, j, hstaged⟩ := hreceived.entry hentry
  obtain hdestination | ⟨htell, _⟩ := howner
  · exact ⟨hs, hdestination j i s hstaged⟩
  · cases htell.symm.trans hpush

/-- The workers exchange what they have staged. -/
theorem exchange_spec {purpose : Purpose} {staging : Fin K → Staging C}
    (hfits : ∀ i, (staging i).Fits R M.stateCount K i) (howner : T.OneOwner purpose staging) :
    T.EndsBy purpose (fun i => Worker.exchange (staging i).outgoing)
      (Received (R := R) (M := M) staging) := by
  obtain ⟨incoming, hround, hreceived⟩ := T.exists_round hfits howner
  exact ⟨incoming, .meet hround (.done incoming), hreceived⟩

/-- When workers stage values for their own states only, nobody receives two values for one state. -/
theorem Received.nodup {staging : Fin K → Staging C} {incoming : Fin K → Incoming C}
    (hfits : ∀ i, (staging i).Fits R M.stateCount K i)
    (hsender : ∀ i j s, ((staging i).colorsFor R j s).Nonempty → T.owner s = i)
    (h : Received (R := R) (M := M) staging incoming) (i : Fin K) :
    (((incoming i).getD []).map (·.1)).Nodup := by
  rw [h.delivered.getD_eq, List.map_flatten, List.nodup_flatten]
  constructor
  · intro keys hkeys
    obtain ⟨packet, hpacket, rfl⟩ := List.mem_map.1 hkeys
    obtain ⟨j, hj⟩ := Exchange.mem_column.1 hpacket
    exact ((hfits j).listed_of_outgoing hj).nodup
  · rw [Exchange.column_ofFn, List.map_filterMap, List.pairwise_filterMap]
    apply (List.nodup_finRange K).imp
    intro j k hne keys hkeys keys' hkeys'
    -- A state in packets of two senders would have both of them as its owner.
    have howner : ∀ {l : Fin K} {keys : List Nat},
        (((staging l).outgoing[(i : Nat)]?.join).map fun packet => packet.map (·.1)) = some keys →
          ∀ s ∈ keys, T.owner s = l := by
      intro l keys hkeys s hs
      obtain ⟨packet, hpacket, rfl⟩ := Option.map_eq_some_iff.1 hkeys
      obtain ⟨⟨s, a⟩, hentry, rfl⟩ := List.mem_map.1 hs
      have hlisted := (hfits l).listed_of_outgoing (Option.join_eq_some_iff.1 hpacket)
      exact hsender l i s (hlisted.within hentry).2
    intro s hs hs'
    exact hne (Fin.ext ((howner hkeys s hs).symm.trans (howner hkeys' s hs')))

end Exchange

section Broadcast

open scoped List in
theorem flatMap_except_perm {α β : Type} [DecidableEq α] {l : List α} (hl : l.Nodup) {x : α}
    (hx : x ∈ l) (f : α → List β) :
    (l.flatMap (fun y => if y = x then [] else f y) ++ f x).Perm (l.flatMap f) := by
  have hperm := List.perm_cons_erase hx
  have hrest : (l.erase x).flatMap (fun y => if y = x then [] else f y) = (l.erase x).flatMap f := by
    apply List.flatMap_congr
    intro y hy
    rw [if_neg]
    rintro rfl
    exact hl.not_mem_erase hy
  calc l.flatMap (fun y => if y = x then [] else f y) ++ f x
    _ ~ (x :: l.erase x).flatMap (fun y => if y = x then [] else f y) ++ f x :=
      (hperm.flatMap_right _).append_right _
    _ = (l.erase x).flatMap f ++ f x := by rw [List.flatMap_cons, if_pos rfl, List.nil_append, hrest]
    _ ~ f x ++ (l.erase x).flatMap f := List.perm_append_comm
    _ ~ l.flatMap f := (hperm.flatMap_right f).symm

/-- After a broadcast every worker knows the packets of all of them. -/
theorem broadcast_spec (packet : Fin K → Packet C)
    (hpacket : ∀ i, Sendable R M.stateCount T.owner (packet i)) :
    T.Ends (fun i => (T.ctx i).broadcast (packet i))
      fun all => ∀ i, (all i).Perm ((List.finRange K).flatMap packet) := by
  let out := fun i : Fin K => (List.range K).map fun destination =>
    if destination ≠ (i : Nat) && !(packet i).isEmpty then some (packet i) else none
  have hout : Brings K (Sendable R M.stateCount T.owner) out := by
    refine ⟨by simp [out], by simp [out], ?_⟩
    intro i sent hsent
    obtain ⟨destination, _, heq⟩ := List.mem_map.1 hsent
    split at heq
    · cases heq
      exact hpacket i
    · cases heq
  change T.Ends (fun i => Worker.exchange (out i) >>= fun received =>
    .done (received.getD [] ++ packet i)) _
  refine (T.round_spec hout).bind fun incoming hdelivered => .done fun i => ?_
  rw [hdelivered.getD_eq, Exchange.column_ofFn]
  have hcolumn : ((List.finRange K).filterMap fun j => (out j)[(i : Nat)]?.join).flatten =
      (List.finRange K).flatMap fun j => if j = i then [] else packet j := by
    rw [List.flatMap_def]
    induction List.finRange K with
    | nil => rfl
    | cons j rest ih =>
      have hsent : (out j)[(i : Nat)]?.join =
          if (i : Nat) ≠ j && !(packet j).isEmpty then some (packet j) else none := by
        simp [out]
      rw [List.filterMap_cons, hsent, List.map_cons, List.flatten_cons, ← ih]
      by_cases hji : j = i
      · simp [hji]
      · have hne : (i : Nat) ≠ j := fun heq => hji (Fin.ext heq.symm)
        cases packet j <;> simp [hne, hji]
  rw [hcolumn]
  exact flatMap_except_perm (List.nodup_finRange K) (List.mem_finRange i) packet

end Broadcast

end Team

end ColoredCtl

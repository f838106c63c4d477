import ColoredCtl.Proofs.Channel.Canonical
import ColoredCtl.Proofs.Hub.Phases
import Mathlib.Algebra.BigOperators.Fin
import Mathlib.Algebra.BigOperators.Intervals
import Mathlib.Algebra.Order.BigOperators.Group.Finset
import Mathlib.Data.UInt

/-!
Endpoints that write frames do what endpoints that share memory do.

A medium delivers packets of a kind when a round between endpoints that all send such packets gives each of
them what is due to it. Over any number of rounds the channel then stays open and its endpoints count what
they have sent and received, which the payloads alone determine. Both media deliver packets that fit a
frame, so nothing that an endpoint can see tells them apart. What all endpoints together have sent is what
all of them together have received, since each payload is one endpoint's and another's.
-/

namespace ColoredCtl

open Color

variable {C : Type} {K : Nat}

namespace Payloads

variable (M : Payloads K (Packet C))

/-- The calls of all endpoints in a round. -/
def calls (r : Nat) : List (Option (Outgoing C)) := List.ofFn fun i => some (List.ofFn (M r i))

/-- Number of entries that one endpoint sends to another in a round. -/
def entries (r : Nat) (sender receiver : Fin K) : Nat := ((M r sender receiver).map List.length).getD 0

/-- Number of entries that an endpoint sends in a number of rounds. -/
def sent (n : Nat) (i : Fin K) : Nat := ∑ r ∈ Finset.range n, ∑ receiver, M.entries r i receiver

/-- Number of entries that an endpoint receives in a number of rounds. -/
def received (n : Nat) (i : Fin K) : Nat := ∑ r ∈ Finset.range n, ∑ sender, M.entries r sender i

/-- What an endpoint has counted after a number of rounds, in machine words. -/
def traffic (n : Nat) (i : Fin K) : Traffic where
  rounds := .ofNat n
  sent := .ofNat (M.sent n i)
  received := .ofNat (M.received n i)

/-- What all endpoints have sent, all endpoints have received. -/
theorem sum_sent (n : Nat) : ∑ i, M.sent n i = ∑ i, M.received n i :=
  calc ∑ i, ∑ r ∈ Finset.range n, ∑ j, M.entries r i j
    _ = ∑ r ∈ Finset.range n, ∑ i, ∑ j, M.entries r i j := Finset.sum_comm
    _ = ∑ r ∈ Finset.range n, ∑ j, ∑ i, M.entries r i j :=
      Finset.sum_congr rfl fun _ _ => Finset.sum_comm
    _ = ∑ j, ∑ r ∈ Finset.range n, ∑ i, M.entries r i j := Finset.sum_comm

/-- A sum of counters is the counter of the sum. -/
theorem sum_ofNat {α : Type} (f : α → Nat) (l : List α) :
    (l.map fun x => UInt64.ofNat (f x)).sum = .ofNat (l.map f).sum := by
  induction l with
  | nil => rfl
  | cons x l ih => rw [List.map_cons, List.map_cons, List.sum_cons, List.sum_cons, ih, UInt64.ofNat_add]

/-- The counters of all endpoints for what they sent have the same sum as those for what they received. -/
theorem sum_sent_traffic (n : Nat) :
    ((List.ofFn (M.traffic n)).map Traffic.sent).sum = ((List.ofFn (M.traffic n)).map Traffic.received).sum := by
  simp only [List.ofFn_eq_map, List.map_map, Function.comp_def, traffic, sum_ofNat]
  rw [← Fin.sum_univ_def, ← Fin.sum_univ_def, M.sum_sent]

/-- As long as fewer entries were sent than a word can count, the counters tell how many there were. -/
theorem sum_toNat_traffic {n : Nat} (h : ∑ i, M.sent n i < Word.bound) :
    ((List.ofFn (M.traffic n)).map (·.sent.toNat)).sum = ∑ i, M.sent n i ∧
      ((List.ofFn (M.traffic n)).map (·.received.toNat)).sum = ∑ i, M.sent n i := by
  have hword {f : Fin K → Nat} (hf : ∑ i, f i < Word.bound) (i : Fin K) : (UInt64.ofNat (f i)).toNat = f i :=
    UInt64.toNat_ofNat_of_lt ((Finset.single_le_sum (fun _ _ => Nat.zero_le _) (Finset.mem_univ i)).trans_lt hf)
  simp only [List.map_ofFn, List.sum_ofFn, Function.comp_def, traffic]
  rw [Finset.sum_congr rfl fun i _ => hword h i, Finset.sum_congr rfl fun i _ => hword (M.sum_sent n ▸ h) i]
  exact ⟨rfl, (M.sum_sent n).symm⟩

/-- What an endpoint sends in a round. -/
theorem size_ofFn (r : Nat) (i : Fin K) :
    Outgoing.size (List.ofFn (M r i)) = ∑ receiver, M.entries r i receiver := by
  have hfold : ∀ (out : Outgoing C) (start : Nat),
      out.foldl (fun total packet => total + (packet.map List.length).getD 0) start =
        start + (out.map fun packet => (packet.map List.length).getD 0).sum := by
    intro out
    induction out with
    | nil => simp
    | cons packet out ih =>
      intro start
      rw [List.foldl_cons, ih, List.map_cons, List.sum_cons, Nat.add_assoc]
  rw [Outgoing.size, hfold, Nat.zero_add, List.map_ofFn, List.sum_ofFn]
  rfl

/-- What is due to an endpoint is what is delivered to it. -/
theorem delivery_rows (r : Nat) (i : Fin K) :
    delivery (fun sender => List.ofFn (M r sender)) i = (M.due r i).map List.flatten := by
  unfold delivery due
  change (if Exchange.anySent (M.rows r) then _ else _) = _
  split <;> rfl

/-- What an endpoint receives in a round. -/
theorem length_due (r : Nat) (i : Fin K) :
    (((M.due r i).map List.flatten).map List.length).getD 0 = ∑ sender, M.entries r sender i := by
  have hcolumn : ∀ senders : List (Fin K), (senders.filterMap fun sender => M r sender i).flatten.length =
      (senders.map fun sender => M.entries r sender i).sum := by
    intro senders
    induction senders with
    | nil => rfl
    | cons sender senders ih =>
      rw [List.filterMap_cons, List.map_cons, List.sum_cons, ← ih, entries]
      cases M r sender i <;> simp
  have hlength : ∀ incoming : Incoming C, (incoming.map List.length).getD 0 = (incoming.getD []).length := by
    intro incoming
    cases incoming <;> rfl
  rw [hlength, ← delivery_rows, (delivered_delivery _).getD_eq]
  change (Exchange.column (M.rows r) i).flatten.length = _
  rw [column_rows, hcolumn, Fin.sum_univ_def]

theorem traffic_succ (n : Nat) (i : Fin K) :
    M.traffic (n + 1) i =
      { rounds := (M.traffic n i).rounds + 1
        sent := (M.traffic n i).sent + .ofNat (Outgoing.size (List.ofFn (M n i)))
        received := (M.traffic n i).received +
          .ofNat ((((M.due n i).map List.flatten).map List.length).getD 0) } := by
  simp only [traffic, sent, received, Finset.sum_range_succ, size_ofFn, length_due, UInt64.ofNat_add]
  rfl

end Payloads

/-- In a round between endpoints that all send packets of the right kind each gets what is due to it. -/
def Medium.Delivers (medium : Medium C) (K : Nat) (Good : Packet C → Prop) : Prop :=
  ∀ (M : Payloads K (Packet C)) (r : Nat), (∀ i j packet, M r i j = some packet → Good packet) →
    medium.round false (M.calls r) = List.ofFn fun i => .ok ((M.due r i).map List.flatten)

/-- Endpoints deliver packets that their carriers give back. -/
theorem Carrier.Restores.meet_calls {T : Type} {carrier : Carrier C T} {packed : Packet C → T}
    {Good : Packet C → Prop} (h : carrier.Restores packed Good) {M : Payloads K (Packet C)} {r : Nat}
    (hM : ∀ i j packet, M r i j = some packet → Good packet) :
    meet (List.replicate K carrier) false (M.calls r) =
      List.ofFn fun i => .ok ((M.due r i).map List.flatten) := by
  simp only [← M.delivery_rows]
  refine h.meet_eq (fun i => List.length_ofFn) fun {i packet} hpacket => ?_
  obtain ⟨j, hj⟩ := List.mem_ofFn.1 hpacket
  exact hM i j packet hj

theorem Medium.shared_delivers (Good : Packet C → Prop) : (Medium.shared K).Delivers K Good :=
  fun _ _ hM => (Carrier.plain_restores Good).meet_calls hM

theorem Medium.framed_delivers {A : Algebra C} {Good : C → Prop} (hA : A.Codes Good) :
    (Medium.framed (List.replicate K A)).Delivers K
      fun packet => Frame.Fits packet ∧ ∀ s a, (s, a) ∈ packet → Good a := by
  intro M r hM
  have hfits (packet : Packet C) (h : Frame.Fits packet ∧ ∀ s a, (s, a) ∈ packet → Good a) :
      packet.length < 0x80000000 ∧ ∀ s a, (s, a) ∈ packet → s < 0x80000000 ∧ Good a :=
    ⟨h.1.1, fun s a hmem => ⟨h.1.2 s a hmem, h.2 s a hmem⟩⟩
  obtain ⟨packed, hrestores⟩ := Carrier.framed_restores hA hfits
  rw [Medium.round, List.map_replicate]
  exact hrestores.meet_calls hM

namespace Channel

variable {channel : Channel C} {M : Payloads K (Packet C)} {Good : Packet C → Prop}

/-- The channel after a number of rounds with the given payloads. -/
def after (channel : Channel C) (M : Payloads K (Packet C)) : Nat → Channel C
  | 0 => channel
  | n + 1 => ((channel.after M n).round (M.calls n)).1

/-- What the endpoints get in one of the rounds. -/
def results (channel : Channel C) (M : Payloads K (Packet C)) (n : Nat) :
    List (Except (Failure ChannelError) (Incoming C)) :=
  ((channel.after M n).round (M.calls n)).2

/-- The state of an open channel after a number of rounds. -/
structure Counts (channel : Channel C) (medium : Medium C) (M : Payloads K (Packet C)) (n : Nat) : Prop where
  medium_eq : channel.medium = medium
  traffic_eq : channel.traffic = List.ofFn (M.traffic n)
  open_eq : channel.aborted = false

/-- There are endpoints exactly where there is room for a place for each pair of them. -/
theorem exists_new_iff {medium : Medium C} :
    (∃ channel, Channel.new medium = .ok channel) ↔ Exchange.reserve medium.count = .ok () := by
  constructor
  · rintro ⟨channel, hnew⟩
    obtain ⟨_, hreserve, _⟩ := bind_eq_ok_iff.1 hnew
    exact hreserve
  · intro hreserve
    exact ⟨{ medium, traffic := List.replicate medium.count {} }, by rw [Channel.new, hreserve]; rfl⟩

theorem counts_new {medium : Medium C} (hnew : Channel.new medium = .ok channel) (hcount : medium.count = K)
    (M : Payloads K (Packet C)) : Counts channel medium M 0 := by
  obtain ⟨_, _, hnew⟩ := bind_eq_ok_iff.1 hnew
  cases hnew
  refine ⟨rfl, ?_, rfl⟩
  rw [hcount, replicate_eq_ofFn]
  refine congrArg List.ofFn (funext fun i => ?_)
  simp [Payloads.traffic, Payloads.sent, Payloads.received]

/-- What an endpoint with peers counts of a round that succeeds. -/
theorem count_ok {medium : Medium C} (hsolo : medium ≠ .solo) (t : Traffic) (out : Outgoing C)
    (incoming : Incoming C) :
    count medium t (some out) (.ok incoming) =
      { rounds := t.rounds + 1
        sent := t.sent + .ofNat out.size
        received := t.received + .ofNat ((incoming.map List.length).getD 0) } := by
  cases medium with
  | solo => exact absurd rfl hsolo
  | shared => rfl
  | framed => rfl

/-- A round gives each endpoint what is due to it, and the channel stays open. -/
theorem Counts.round {medium : Medium C} {n : Nat} (h : Counts channel medium M n) (hsolo : medium ≠ .solo)
    (hdelivers : medium.Delivers K Good) (hM : ∀ i j packet, M n i j = some packet → Good packet) :
    (channel.round (M.calls n)).2 = List.ofFn (fun i => .ok ((M.due n i).map List.flatten)) ∧
      Counts (channel.round (M.calls n)).1 medium M (n + 1) := by
  have hround : channel.medium.round channel.aborted (M.calls n) =
      List.ofFn fun i => .ok ((M.due n i).map List.flatten) := by
    rw [h.medium_eq, h.open_eq]
    exact hdelivers M n hM
  refine ⟨hround, h.medium_eq, ?_, h.open_eq⟩
  simp only [Channel.round, hround, h.traffic_eq]
  simp only [Payloads.calls, List.zip, zipWith_ofFn, List.map_ofFn, Function.comp_def]
  refine congrArg List.ofFn (funext fun i => ?_)
  rw [h.medium_eq, count_ok hsolo, M.traffic_succ]

/-- Over any number of rounds the channel stays open, and its endpoints count the payloads. -/
theorem Counts.after {medium : Medium C} (h : Counts channel medium M 0) (hsolo : medium ≠ .solo)
    (hdelivers : medium.Delivers K Good) (hM : ∀ r i j packet, M r i j = some packet → Good packet)
    (n : Nat) : Counts (channel.after M n) medium M n := by
  induction n with
  | zero => exact h
  | succ n ih => exact (ih.round hsolo hdelivers (hM n)).2

theorem Counts.results_eq {medium : Medium C} (h : Counts channel medium M 0) (hsolo : medium ≠ .solo)
    (hdelivers : medium.Delivers K Good) (hM : ∀ r i j packet, M r i j = some packet → Good packet)
    (n : Nat) :
    channel.results M n = List.ofFn fun i => .ok ((M.due n i).map List.flatten) :=
  ((h.after hsolo hdelivers hM n).round hsolo hdelivers (hM n)).1

/-- The first of two endpoints sends an empty packet to itself and an entry to the other, once. -/
def oneEntry : Payloads 2 (Packet ColorSet) := fun r i j =>
  if r = 0 ∧ i = 0 then some (if j = 0 then [] else [(3, ColorSet.full 70)]) else none

end Channel

end ColoredCtl

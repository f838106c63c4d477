import ColoredCtl.Proofs.Check.Search
import Mathlib.Algebra.BigOperators.Fin

/-!
Fixed points of a team.

A color that appears at a state is owed to workers: to the owners of other states, or to the worker
itself. A rule handles a state by telling its own worker what is owed to it, and by staging what is
owed to others; what a worker receives it has then heard. `Plan` says what is owed and heard for a
rule, and `Plan.Sound` that the rule keeps to it. When all workers are done, everything that is owed
for their results has been heard.
-/

namespace ColoredCtl

open Color

variable {C σ : Type} {A : Algebra C} {R : Reading A} {M : Model C} {S : Nat → Kripke} {K : Nat}

/-- What a rule is meant to do, for each worker. -/
structure Plan (C σ : Type) (K : Nat) where
  rule : Fin K → Rule C σ
  purpose : Purpose
  /-- What is known of the result and the memory of a worker. -/
  Inv : Fin K → Accumulator C → σ → Prop
  /-- The worker has taken a color at a state into account. -/
  Heard : Fin K → Accumulator C → σ → (state color : Nat) → Prop
  /-- A color that appears at a state has to be heard by a worker, at some state. -/
  Owes : (state color : Nat) → (worker : Fin K) → (at_ : Nat) → Prop
  /-- A worker may tell another one about a color at a state. -/
  Valid : (sender receiver : Nat) → (state color : Nat) → Prop

namespace Plan

/-- What holds of the search of a worker between its steps. -/
structure Good (plan : Plan C σ K) (T : Team R M S K) (i : Fin K) (s : Search C σ) : Prop where
  fits : s.Fits (T.ctx i) R
  inv : plan.Inv i s.result s.memory
  valid : ∀ {j u c}, c ∈ s.staging.colorsFor R j u → plan.Valid i j u c

/-- The search of a worker has gone on, and nothing heard was forgotten. -/
structure Steps (plan : Plan C σ K) (T : Team R M S K) (i : Fin K) (s s' : Search C σ) : Prop where
  good : plan.Good T i s'
  ext : Search.Extends (T.ctx i) R s s'
  heard : ∀ {u c}, plan.Heard i s.result s.memory u c → plan.Heard i s'.result s'.memory u c

/-- The rule tells what is owed, and hears what it is told. -/
structure Sound (plan : Plan C σ K) (T : Team R M S K) : Prop where
  oneOwner : (∀ {i j u c}, plan.Valid i j u c → T.owner u = j) ∨
    plan.purpose = .tell ∧ ∀ {i j u c}, plan.Valid i j u c → T.owner u = i
  propagate : ∀ {i s t v}, plan.Good T i s → s.result.get? t = some v → (R.colors v).Nonempty →
    ∃ s', (plan.rule i).propagate s t v = .ok s' ∧ plan.Steps T i s s' ∧
      ∀ {c}, c ∈ R.colors v → ∀ {j u}, plan.Owes t c j u →
        (j = i → plan.Heard i s'.result s'.memory u c) ∧
          (j ≠ i → c ∈ s'.staging.colorsFor R j u)
  receive : ∀ {i : Fin K} {s u a}, plan.Good T i s → u < M.stateCount → R.InDomain a →
    (∀ c ∈ R.colors a, ∃ j : Fin K, plan.Valid j i u c) →
    ∃ s', (plan.rule i).receive s u a = .ok s' ∧ plan.Steps T i s s' ∧ s'.staging = s.staging ∧
      ∀ {c}, c ∈ R.colors a → plan.Heard i s'.result s'.memory u c

variable {plan : Plan C σ K} {T : Team R M S K} {i : Fin K}

theorem Good.steps_refl {s : Search C σ} (h : plan.Good T i s) : plan.Steps T i s s :=
  ⟨h, .refl s, id⟩

theorem Steps.trans {s s' s'' : Search C σ} (h : plan.Steps T i s s') (h' : plan.Steps T i s' s'') :
    plan.Steps T i s s'' :=
  ⟨h'.good, h.ext.trans h'.ext, fun hheard => h'.heard (h.heard hheard)⟩

/-- What is owed for the states that do not wait to be handled has been heard by the worker itself,
and is staged for the other workers if it is not known to have been heard by them. -/
def Closed (plan : Plan C σ K) (R : Reading A) (i : Fin K) (Known : Fin K → Nat → Nat → Prop)
    (s : Search C σ) : Prop :=
  ∀ {t}, t ∉ s.work.stack → ∀ {c}, c ∈ s.result.colorsAt R t → ∀ {j u}, plan.Owes t c j u →
    (j = i → plan.Heard i s.result s.memory u c) ∧
      (j ≠ i → c ∈ s.staging.colorsFor R j u ∨ Known j u c)

/-- The state of a worker that has taken a state from its work-set. -/
theorem Good.pop {s : Search C σ} (h : plan.Good T i s) {t : Nat} {rest : List Nat}
    (hstack : s.work.stack = t :: rest) :
    plan.Good T i { s with work := ⟨rest, s.work.queued.without t⟩ } :=
  ⟨h.fits.pop hstack, h.inv, h.valid⟩

/-- A search after all states that waited have been handled. -/
structure Drained (plan : Plan C σ K) (T : Team R M S K) (i : Fin K)
    (Known : Fin K → Nat → Nat → Prop) (s s' : Search C σ) : Prop where
  good : plan.Good T i s'
  closed : plan.Closed R i Known s'
  stack_eq : s'.work.stack = []
  eq_of_nil : s.work.stack = [] → s' = s
  grows : ∀ t, s.result.colorsAt R t ⊆ s'.result.colorsAt R t
  heard : ∀ {u c}, plan.Heard i s.result s.memory u c → plan.Heard i s'.result s'.memory u c

/-- All states that wait are handled after no more turns than there is left to do. -/
theorem Sound.drain_spec (hplan : plan.Sound T) {Known : Fin K → Nat → Nat → Prop} (bound : Nat)
    {s : Search C σ} (hbound : Search.potential (T.ctx i) R s ≤ bound) (hgood : plan.Good T i s)
    (hclosed : plan.Closed R i Known s) :
    ∃ turns ≤ bound, ∃ s', Search.Drains (plan.rule i) turns s s' ∧ plan.Drained T i Known s s' := by
  induction bound generalizing s with
  | zero =>
    have hempty : s.work.stack = [] := by
      rw [← List.length_eq_zero_iff]
      simp only [Search.potential] at hbound
      omega
    exact ⟨0, Nat.le_refl 0, s, .done (Search.turn_of_nil _ hempty), hgood, hclosed, hempty, fun _ => rfl,
      fun _ => Finset.Subset.refl _, id⟩
  | succ bound ih =>
    cases hstack : s.work.stack with
    | nil =>
      exact ⟨0, Nat.zero_le _, s, .done (Search.turn_of_nil _ hstack), hgood, hclosed, hstack, fun _ => rfl,
        fun _ => Finset.Subset.refl _, id⟩
    | cons t rest =>
      have hpending := hgood.fits.pending (hstack ▸ List.mem_cons_self : t ∈ s.work.stack)
      obtain ⟨value, hvalue⟩ : ∃ value, s.result.get? t = some value := by
        cases hget : s.result.get? t with
        | none => simp [Accumulator.colorsAt, hget] at hpending
        | some value => exact ⟨value, rfl⟩
      have hcolors : s.result.colorsAt R t = R.colors value := Accumulator.colorsAt_of_get? hvalue
      obtain ⟨s', hs', hsteps, howes⟩ := hplan.propagate (hgood.pop hstack) hvalue (hcolors ▸ hpending)
      have hpotential := hsteps.ext.potential_le
      have hless : Search.potential (T.ctx i) R s' + 1 ≤ Search.potential (T.ctx i) R s := by
        simp only [Search.potential, hstack, List.length_cons] at hpotential ⊢
        exact Nat.succ_le_succ hpotential
      have hclosed' : plan.Closed R i Known s' := by
        intro u hu c hc j v howe
        rw [hsteps.ext.unchanged hu] at hc
        by_cases hut : u = t
        · subst hut
          obtain ⟨hlocal, hremote⟩ := howes (hcolors ▸ hc) howe
          exact ⟨hlocal, fun hne => .inl (hremote hne)⟩
        · have hwaits : u ∉ s.work.stack := by
            rw [hstack, List.mem_cons, not_or]
            exact ⟨hut, fun hmem => hu (hsteps.ext.queued hmem)⟩
          obtain ⟨hlocal, hremote⟩ := hclosed hwaits hc howe
          exact ⟨fun heq => hsteps.heard (hlocal heq),
            fun hne => (hremote hne).imp_left fun hmem => hsteps.ext.staged j v hmem⟩
      obtain ⟨turns, hturns, last, hlast, hdrained⟩ := ih (by omega) hsteps.good hclosed'
      have hturn : Search.turn (plan.rule i) s = some (.ok s') := by
        rw [Search.turn_of_cons _ hstack hvalue, hs']
      exact ⟨turns + 1, Nat.succ_le_succ hturns, last, .step hturn hlast, hdrained.good, hdrained.closed,
        hdrained.stack_eq, by simp [hstack], fun u => (hsteps.ext.grows u).trans (hdrained.grows u),
        fun hknown => hdrained.heard (hsteps.heard hknown)⟩

/-- Taking what was received into account. -/
theorem Sound.feed_spec (hplan : plan.Sound T) {s : Search C σ} (hgood : plan.Good T i s)
    {packet : Packet C} (hpacket : ∀ {u a}, (u, a) ∈ packet → u < M.stateCount ∧ R.InDomain a ∧
      ∀ c ∈ R.colors a, ∃ j : Fin K, plan.Valid j i u c) :
    ∃ s', s.feed (plan.rule i).receive packet = .ok s' ∧ plan.Steps T i s s' ∧
      s'.staging = s.staging ∧
      ∀ {u a c}, (u, a) ∈ packet → c ∈ R.colors a → plan.Heard i s'.result s'.memory u c := by
  refine foldlM_run (fun done s' => plan.Steps T i s s' ∧ s'.staging = s.staging ∧
    ∀ {u a c}, (u, a) ∈ done → c ∈ R.colors a → plan.Heard i s'.result s'.memory u c)
    ⟨hgood.steps_refl, rfl, by simp⟩ ?_
  rintro done ⟨u, a⟩ rest s' hsplit ⟨hsteps, hstaging, hheard⟩
  obtain ⟨hu, ha, hvalid⟩ := hpacket (u := u) (a := a) (by simp [hsplit])
  obtain ⟨next, hnext, hnextSteps, hnextStaging, hnextHeard⟩ :=
    hplan.receive hsteps.good hu ha hvalid
  refine ⟨next, hnext, hsteps.trans hnextSteps, hnextStaging.trans hstaging, ?_⟩
  intro v b c hmem hc
  rcases List.mem_append.1 hmem with hmem | hmem
  · exact hnextSteps.heard (hheard hmem hc)
  · cases List.mem_singleton.1 hmem
    exact hnextHeard hc

theorem Sound.staging_oneOwner (hplan : plan.Sound T) {s : Fin K → Search C σ}
    (hgood : ∀ i, plan.Good T i (s i)) : T.OneOwner plan.purpose fun i => (s i).staging := by
  rcases hplan.oneOwner with hreceiver | ⟨htell, hsender⟩
  · left
    rintro i j u ⟨c, hc⟩
    exact hreceiver ((hgood i).valid hc)
  · refine .inr ⟨htell, ?_⟩
    rintro i j u ⟨c, hc⟩
    exact hsender ((hgood i).valid hc)

/-- The state of a worker that has sent what it had staged. -/
theorem Good.clear {s : Search C σ} (h : plan.Good T i s) :
    plan.Good T i { s with staging := s.staging.clear } ∧
      ∀ j u, s.staging.clear.colorsFor R j u = ∅ := by
  obtain ⟨hfits, hempty⟩ := h.fits.clear
  refine ⟨⟨hfits, h.inv, ?_⟩, hempty⟩
  intro j u c hc
  rw [hempty] at hc
  cases hc

/-- What holds between two rounds: nothing is staged, and what is owed for the states that do not wait has
been heard. -/
structure Between (plan : Plan C σ K) (T : Team R M S K) (s : Fin K → Search C σ) : Prop where
  good : ∀ i, plan.Good T i (s i)
  unstaged : ∀ i j u, (s i).staging.colorsFor R j u = ∅
  closed : ∀ i, plan.Closed R i (fun j u c => plan.Heard j (s j).result (s j).memory u c) (s i)

/-- All workers handle the states that wait, and exchange what they have staged. -/
structure Turn (plan : Plan C σ K) (T : Team R M S K) (s d : Fin K → Search C σ)
    (incoming : Fin K → Incoming C) : Prop where
  drains : ∀ i, ∃ turns ≤ Search.drainFuel (T.ctx i), Search.Drains (plan.rule i) turns (s i) (d i)
  drained : ∀ i, plan.Drained T i (fun j u c => plan.Heard j (s j).result (s j).memory u c) (s i) (d i)
  round : T.Round plan.purpose (fun i => (d i).staging.outgoing) incoming
  received : Team.Received (R := R) (M := M) (fun i => (d i).staging) incoming

/-- All workers take what they have received into account, and have nothing staged any more. -/
structure Fed (plan : Plan C σ K) (T : Team R M S K) (d next : Fin K → Search C σ)
    (received : Fin K → Packet C) : Prop where
  feed_eq : ∀ i, Search.feed (plan.rule i).receive { d i with staging := (d i).staging.clear } (received i) =
    .ok (next i)
  ext : ∀ i, Search.Extends (T.ctx i) R { d i with staging := (d i).staging.clear } (next i)

theorem Sound.exists_turn (hplan : plan.Sound T) {s : Fin K → Search C σ} (hs : plan.Between T s) :
    ∃ d incoming, plan.Turn T s d incoming := by
  choose turns hturns d hdrains hdrained using fun i =>
    hplan.drain_spec (Search.drainFuel (T.ctx i)) (hs.good i).fits.potential_le (hs.good i) (hs.closed i)
  obtain ⟨incoming, hround, hreceived⟩ := T.exists_round
    (fun i => (hdrained i).good.fits.staging_fits) (hplan.staging_oneOwner fun i => (hdrained i).good)
  exact ⟨d, incoming, fun i => ⟨turns i, hturns i, hdrains i⟩, hdrained, hround, hreceived⟩

/-- A round brings something to all workers or to none; nothing if nothing was staged. -/
theorem Turn.incoming_cases {s d : Fin K → Search C σ} {incoming : Fin K → Incoming C}
    (h : plan.Turn T s d incoming) :
    (incoming = fun _ => none) ∧ (∀ i j u, (d i).staging.colorsFor R j u = ∅) ∨
      ∃ received : Fin K → Packet C, (incoming = fun i => some (received i)) ∧
        ∃ i j u, ((d i).staging.colorsFor R j u).Nonempty := by
  by_cases hempty : ∀ i j u, (d i).staging.colorsFor R j u = ∅
  · exact .inl ⟨funext fun i => (h.received.none_iff i).2 hempty, hempty⟩
  · have hsome : ∀ i, ∃ received, incoming i = some received := by
      intro i
      rw [← Option.ne_none_iff_exists']
      exact fun hnone => hempty ((h.received.none_iff i).1 hnone)
    choose received hreceived using hsome
    refine .inr ⟨received, funext hreceived, ?_⟩
    by_contra hnone
    push Not at hnone
    exact hempty hnone

/-- When nothing was staged, all that is owed for the results has been heard. -/
theorem Turn.heard_of_empty {s d : Fin K → Search C σ} {incoming : Fin K → Incoming C}
    (h : plan.Turn T s d incoming) (hempty : ∀ i j u, (d i).staging.colorsFor R j u = ∅) {i : Fin K}
    {t c : Nat} (hc : c ∈ (d i).result.colorsAt R t) {j : Fin K} {u : Nat} (howe : plan.Owes t c j u) :
    plan.Heard j (d j).result (d j).memory u c := by
  obtain ⟨hlocal, hremote⟩ := (h.drained i).closed (by simp [(h.drained i).stack_eq]) hc howe
  by_cases hij : j = i
  · subst hij
    exact hlocal rfl
  · rcases hremote hij with hstaged | hknown
    · rw [hempty] at hstaged
      cases hstaged
    · exact (h.drained j).heard hknown

/-- What was received is taken into account by all workers, and the next turn can begin. -/
theorem Sound.exists_fed (hplan : plan.Sound T) {s d : Fin K → Search C σ} {received : Fin K → Packet C}
    (h : plan.Turn T s d fun i => some (received i)) :
    ∃ next, plan.Fed T d next received ∧ plan.Between T next := by
  choose next hnext hsteps hstaging hheard using fun i => hplan.feed_spec (h.drained i).good.clear.1 (by
    intro u a hua
    obtain ⟨hu, ha, _⟩ := h.received.entry (i := i) hua
    refine ⟨hu, ha, fun c hc => ?_⟩
    obtain ⟨j, hj⟩ := h.received.mem_iff.1 ⟨a, hua, hc⟩
    exact ⟨j, (h.drained j).good.valid hj⟩ : _)
  refine ⟨next, ⟨hnext, fun i => (hsteps i).ext⟩, fun i => (hsteps i).good, ?_, ?_⟩
  · intro i j u
    rw [hstaging i]
    exact (h.drained i).good.clear.2 j u
  · intro i t ht c hc j u howe
    rw [(hsteps i).ext.unchanged ht] at hc
    obtain ⟨hlocal, hremote⟩ := (h.drained i).closed (by simp [(h.drained i).stack_eq]) hc howe
    refine ⟨fun hij => (hsteps i).heard (hlocal hij), fun hij => .inr ?_⟩
    rcases hremote hij with hstaged | hknown
    · obtain ⟨a, hua, hca⟩ := h.received.mem_iff.2 ⟨i, hstaged⟩
      exact hheard j hua hca
    · exact (hsteps j).heard ((h.drained j).heard hknown)

/-- Values that have been missing before a turn have grown after it, one for each state that waits. -/
theorem Turn.missing_add_le {s d next : Fin K → Search C σ} {incoming : Fin K → Incoming C}
    {received : Fin K → Packet C} (h : plan.Turn T s d incoming) (hnext : plan.Fed T d next received)
    (i : Fin K) :
    Search.missing (T.ctx i) R (next i) + (next i).work.stack.length ≤ Search.missing (T.ctx i) R (s i) := by
  have hpotential := (hnext.ext i).potential_le
  simp only [Search.potential, (h.drained i).stack_eq, List.length_nil, Nat.add_zero] at hpotential
  exact hpotential.trans (Search.missing_anti (h.drained i).grows)

/-- What is staged in a turn is staged because some state waited. -/
theorem Turn.exists_waiting {s d : Fin K → Search C σ} {incoming : Fin K → Incoming C}
    (h : plan.Turn T s d incoming) (hs : plan.Between T s) {i : Fin K} {j u : Nat}
    (hstaged : ((d i).staging.colorsFor R j u).Nonempty) : (s i).work.stack ≠ [] := by
  intro hnil
  rw [(h.drained i).eq_of_nil hnil, hs.unstaged i j u] at hstaged
  exact Finset.not_nonempty_empty hstaged

/-- The rounds that are enough: one for each value that is missing, and two more. The first round may come
before any value has grown, and the last one ends the search; one is enough if no state waits. -/
def Enough (T : Team R M S K) (s : Fin K → Search C σ) (fuel : Nat) : Prop :=
  ((∀ i, (s i).work.stack = []) ∧ ∑ i, Search.missing (T.ctx i) R (s i) + 1 ≤ fuel) ∨
    ∑ i, Search.missing (T.ctx i) R (s i) + 2 ≤ fuel

/-- After a round in which something was sent, one round less is enough. Something was sent because some
state waited before; and if some state waits after it, a value has grown in between. -/
theorem Turn.enough {s d next : Fin K → Search C σ} {incoming : Fin K → Incoming C}
    {received : Fin K → Packet C} {fuel : Nat} (h : plan.Turn T s d incoming) (hs : plan.Between T s)
    (hsent : ∃ i j u, ((d i).staging.colorsFor R j u).Nonempty) (hnext : plan.Fed T d next received)
    (hfuel : Enough T s (fuel + 1)) : Enough T next fuel := by
  have hle := h.missing_add_le hnext
  have hbound : ∑ i, Search.missing (T.ctx i) R (s i) + 2 ≤ fuel + 1 := by
    rcases hfuel with ⟨hnil, _⟩ | hfuel
    · obtain ⟨i, j, u, hstaged⟩ := hsent
      exact absurd (hnil i) (h.exists_waiting hs hstaged)
    · exact hfuel
  by_cases hnil : ∀ i, (next i).work.stack = []
  · have hsum : ∑ i, Search.missing (T.ctx i) R (next i) ≤ ∑ i, Search.missing (T.ctx i) R (s i) :=
      Finset.sum_le_sum fun i _ => (Nat.le_add_right _ _).trans (hle i)
    exact .inl ⟨hnil, by omega⟩
  · rw [not_forall] at hnil
    obtain ⟨i, hi⟩ := hnil
    have hpos : 0 < (next i).work.stack.length := List.length_pos_of_ne_nil hi
    have hsum : ∑ i, Search.missing (T.ctx i) R (next i) < ∑ i, Search.missing (T.ctx i) R (s i) := by
      refine Finset.sum_lt_sum (fun j _ => (Nat.le_add_right _ _).trans (hle j))
        ⟨i, Finset.mem_univ i, ?_⟩
      have := hle i
      omega
    exact .inr (by omega)

/-- The searches of all workers, turn by turn: `start` before the states that wait are handled, and `ready`
after that. All turns but the last bring something to the workers. -/
structure Settling (plan : Plan C σ K) (T : Team R M S K) (rounds : Nat)
    (start ready : Nat → Fin K → Search C σ) : Prop where
  between : ∀ r ≤ rounds, plan.Between T (start r)
  turn : ∀ r < rounds, ∃ received : Fin K → Packet C,
    plan.Turn T (start r) (ready r) (fun i => some (received i)) ∧
      plan.Fed T (ready r) (start (r + 1)) received
  last : plan.Turn T (start rounds) (ready rounds) fun _ => none

theorem Settling.tail {rounds : Nat} {start ready : Nat → Fin K → Search C σ}
    (h : plan.Settling T (rounds + 1) start ready) :
    plan.Settling T rounds (fun r => start (r + 1)) fun r => ready (r + 1) :=
  ⟨fun r hr => h.between (r + 1) (Nat.succ_le_succ hr), fun r hr => h.turn (r + 1) (Nat.succ_lt_succ hr),
    h.last⟩

/-- A turn in front. -/
theorem Settling.cons {rounds : Nat} {start ready : Nat → Fin K → Search C σ} {s d : Fin K → Search C σ}
    {received : Fin K → Packet C} (h : plan.Settling T rounds start ready) (hs : plan.Between T s)
    (hturn : plan.Turn T s d fun i => some (received i)) (hnext : plan.Fed T d (start 0) received) :
    plan.Settling T (rounds + 1) (fun r => Nat.casesOn r s start) fun r => Nat.casesOn r d ready where
  between r hr := by
    cases r with
    | zero => exact hs
    | succ r => exact h.between r (Nat.le_of_succ_le_succ hr)
  turn r hr := by
    cases r with
    | zero => exact ⟨received, hturn, hnext⟩
    | succ r => exact h.turn r (Nat.lt_of_succ_lt_succ hr)
  last := h.last

/-- The workers of a sound plan come to an end, after no more rounds than are enough. -/
theorem Sound.exists_settling (hplan : plan.Sound T) (fuel : Nat) {s : Fin K → Search C σ}
    (hs : plan.Between T s) (hfuel : Enough T s fuel) :
    ∃ rounds < fuel, ∃ start ready, start 0 = s ∧ plan.Settling T rounds start ready := by
  induction fuel generalizing s with
  | zero =>
    unfold Enough at hfuel
    omega
  | succ fuel ih =>
    obtain ⟨d, incoming, hturn⟩ := hplan.exists_turn hs
    obtain ⟨rfl, _⟩ | ⟨received, rfl, hsent⟩ := hturn.incoming_cases
    · refine ⟨0, Nat.succ_pos fuel, fun _ => s, fun _ => d, rfl, fun r _ => hs, ?_, hturn⟩
      exact fun r hr => absurd hr (Nat.not_lt_zero r)
    · obtain ⟨next, hnext, hbetween⟩ := hplan.exists_fed hturn
      obtain ⟨rounds, hrounds, start, ready, rfl, hsettling⟩ :=
        ih hbetween (hturn.enough hs hsent hnext hfuel)
      exact ⟨rounds + 1, Nat.succ_lt_succ hrounds, _, _, rfl, hsettling.cons hs hturn hnext⟩

/-- What the rounds bring to the workers: something in all rounds but the last, and nothing in later ones. -/
theorem Settling.exists_incoming {rounds : Nat} {start ready : Nat → Fin K → Search C σ}
    (h : plan.Settling T rounds start ready) :
    ∃ incoming : Nat → Fin K → Incoming C,
      (∀ r ≤ rounds, plan.Turn T (start r) (ready r) (incoming r)) ∧
      (∀ r < rounds, ∃ received, (incoming r = fun i => some (received i)) ∧
        plan.Fed T (ready r) (start (r + 1)) received) ∧
      ∀ r, rounds < r → incoming r = fun _ => none := by
  choose! received hturn hfed using h.turn
  obtain ⟨incoming, hbefore, hafter⟩ : ∃ incoming : Nat → Fin K → Incoming C,
      (∀ r < rounds, incoming r = fun i => some (received r i)) ∧
        ∀ r, rounds ≤ r → incoming r = fun _ => none := by
    refine ⟨fun r i => if r < rounds then some (received r i) else none, ?_, ?_⟩
    · exact fun r hr => funext fun i => if_pos hr
    · exact fun r hr => funext fun i => if_neg (Nat.not_lt.2 hr)
  refine ⟨incoming, ?_, fun r hr => ⟨received r, hbefore r hr, hfed r hr⟩,
    fun r hr => hafter r (Nat.le_of_lt hr)⟩
  intro r hr
  rcases Nat.lt_or_eq_of_le hr with hlt | rfl
  · rw [hbefore r hlt]
    exact hturn r hlt
  · rw [hafter r (Nat.le_refl r)]
    exact h.last

theorem Settling.unstaged {rounds : Nat} {start ready : Nat → Fin K → Search C σ}
    (h : plan.Settling T rounds start ready) (i : Fin K) (j u : Nat) :
    (ready rounds i).staging.colorsFor R j u = ∅ :=
  (h.last.received.none_iff i).1 rfl i j u

/-- In the end all that is owed for the results has been heard. -/
theorem Settling.heard {rounds : Nat} {start ready : Nat → Fin K → Search C σ}
    (h : plan.Settling T rounds start ready) {i : Fin K} {t c : Nat}
    (hc : c ∈ (ready rounds i).result.colorsAt R t) {j : Fin K} {u : Nat} (howe : plan.Owes t c j u) :
    plan.Heard j (ready rounds j).result (ready rounds j).memory u c :=
  h.last.heard_of_empty h.unstaged hc howe

/-- Workers that have settled list sets of states, if all that they have found is in the sets and nothing in
the sets was missed. -/
theorem Settling.lists {rounds : Nat} {start ready : Nat → Fin K → Search C σ} {Z : Nat → Set Nat}
    (h : plan.Settling T rounds start ready)
    (hsound : ∀ i t c, c ∈ (ready rounds i).result.colorsAt R t → t ∈ Z c)
    (hcomplete : ∀ c ∈ R.palette,
      Z c ⊆ {t | ∀ j, (T.ctx j).Owns t → c ∈ (ready rounds j).result.colorsAt R t}) :
    T.Lists Z fun i => (ready rounds i).result.freeze := by
  intro i
  have hfits := (h.last.drained i).good.fits
  refine hfits.result_fits.freeze_shows ?_ fun t c htc => ⟨c, htc⟩
  intro t c
  constructor
  · intro hc
    have hsub := hfits.result_fits.freeze_fits.colorsAt_subset t
    rw [Accumulator.colorsAt_freeze] at hsub
    exact ⟨hfits.within hc, hsub hc, hsound i t c hc⟩
  · rintro ⟨ht, hc, hmem⟩
    exact hcomplete c hc hmem i ht

/-- A worker that has handled its states waits for a round with what it has staged; then it is done, or
goes on with what it has received. -/
theorem saturate_of_drains {ctx : Context C} {rule : Rule C σ} {s d : Search C σ}
    (h : ∃ turns ≤ Search.drainFuel ctx, Search.Drains rule turns s d) (fuel : Nat) :
    ∃ resume, Search.saturate ctx rule (fuel + 1) s = .meet d.staging.outgoing resume ∧
      resume none = .done d.result.freeze ∧
      ∀ {received next},
        Search.feed rule.receive { d with staging := d.staging.clear } received = .ok next →
          resume (some received) = Search.saturate ctx rule fuel next := by
  rw [Search.saturate, Search.drain_eq_ok_iff.2 h]
  refine ⟨_, rfl, rfl, ?_⟩
  intro received next hfeed
  change (liftM (Search.feed rule.receive _ received) : Worker C (Search C σ)) >>= _ = _
  rw [hfeed]
  rfl

/-- The workers come to the results that they have when they settle. -/
theorem Settling.yields {rounds fuel : Nat} {start ready : Nat → Fin K → Search C σ}
    (h : plan.Settling T rounds start ready) (hfuel : rounds < fuel) :
    Crew.Yields (T.Round plan.purpose)
      (fun i => Search.saturate (T.ctx i) (plan.rule i) fuel (start 0 i))
      fun i => (ready rounds i).result.freeze := by
  obtain ⟨fuel, rfl⟩ := Nat.exists_eq_succ_of_ne_zero (Nat.ne_of_gt (Nat.zero_lt_of_lt hfuel))
  induction rounds generalizing fuel start ready with
  | zero =>
    choose resume hmeet hdone _ using fun i => saturate_of_drains (h.last.drains i) fuel
    simp only [hmeet]
    refine .meet h.last.round ?_
    simp only [hdone]
    exact .done _
  | succ rounds ih =>
    obtain ⟨received, hturn, hfed⟩ := h.turn 0 (Nat.succ_pos rounds)
    choose resume hmeet _ hnext using fun i => saturate_of_drains (hturn.drains i) fuel
    simp only [hmeet]
    refine .meet hturn.round ?_
    simp only [hnext _ (hfed.feed_eq _)]
    obtain ⟨fuel, rfl⟩ : ∃ k, fuel = k + 1 := Nat.exists_eq_succ_of_ne_zero (by omega)
    exact ih h.tail fuel (by omega)

/-- The states of all workers are not more than the states of the model. -/
theorem sum_card_owned (T : Team R M S K) :
    ∑ i, (Search.owned (T.ctx i)).card ≤ M.stateCount := by
  have hmaps : ∀ t ∈ (Finset.range M.stateCount).filter (fun t => T.owner t < K),
      T.owner t ∈ Finset.range K := by
    intro t ht
    exact Finset.mem_range.2 (Finset.mem_filter.1 ht).2
  calc ∑ i, (Search.owned (T.ctx i)).card
    _ = ∑ i : Fin K, (((Finset.range M.stateCount).filter fun t => T.owner t < K).filter
          fun t => T.owner t = i).card := by
      refine Finset.sum_congr rfl fun i _ => congrArg Finset.card ?_
      ext t
      simp only [Search.mem_owned, T.owns_iff, Finset.mem_filter, Finset.mem_range]
      constructor
      · rintro ⟨ht, heq⟩
        exact ⟨⟨ht, heq ▸ i.isLt⟩, heq⟩
      · rintro ⟨⟨ht, _⟩, heq⟩
        exact ⟨ht, heq⟩
    _ = ((Finset.range M.stateCount).filter fun t => T.owner t < K).card := by
      rw [Finset.card_eq_sum_card_fiberwise hmaps, Finset.sum_range]
    _ ≤ M.stateCount := by
      have hle := Finset.card_filter_le (Finset.range M.stateCount) fun t => T.owner t < K
      rwa [Finset.card_range] at hle

/-- The searches for a fixed point begin where nothing is staged, and with enough rounds before them. -/
theorem Sound.fixedPoint_spec (hplan : plan.Sound T) (memory : Fin K → σ) {seeds : Fin K → Packet C}
    {Φ : Fin K → Nat → Nat → Prop} (hseeds : ∀ i, Gathered R (T.ctx i).Owns (Φ i) (seeds i))
    (hinv : ∀ i (result : Accumulator C), (∀ t c, c ∈ result.colorsAt R t ↔ Φ i t c) →
      plan.Inv i result (memory i)) :
    ∃ rounds < M.stateCount * A.height + 2, ∃ start ready, plan.Settling T rounds start ready ∧
      ∀ i, Search.Begins (T.ctx i) (memory i) (seeds i) (start 0 i) := by
  choose new s hnew hfeed hfits hmemory hstaging hwaits hcolors using
    fun i => Search.seeds_spec (T.ready i) (memory i) (hseeds i)
  have hbetween : plan.Between T s := by
    refine ⟨fun i => ⟨hfits i, ?_, ?_⟩, hstaging, ?_⟩
    · rw [hmemory]
      exact hinv i _ (hcolors i)
    · intro j u c hc
      rw [hstaging] at hc
      cases hc
    · intro i t ht c hc
      rw [hwaits i ht] at hc
      cases hc
  have hfuel : Enough T s (M.stateCount * A.height + 2) := by
    refine .inr (Nat.add_le_add_right ?_ 2)
    calc ∑ i, Search.missing (T.ctx i) R (s i)
      _ ≤ ∑ i, (Search.owned (T.ctx i)).card * R.palette.card :=
        Finset.sum_le_sum fun i _ => Search.missing_le (s i)
      _ = (∑ i, (Search.owned (T.ctx i)).card) * R.palette.card := (Finset.sum_mul ..).symm
      _ ≤ M.stateCount * A.height := Nat.mul_le_mul (sum_card_owned T) R.card_palette_le
  obtain ⟨rounds, hrounds, start, ready, rfl, hsettling⟩ := hplan.exists_settling _ hbetween hfuel
  exact ⟨rounds, hrounds, start, ready, hsettling, fun i => ⟨new i, hnew i, hfeed i⟩⟩

theorem Settling.fixedPoint_yields {rounds : Nat} {start ready : Nat → Fin K → Search C σ}
    (h : plan.Settling T rounds start ready) (hrounds : rounds < M.stateCount * A.height + 2)
    {memory : Fin K → σ} {seeds : Fin K → Packet C}
    (hbegins : ∀ i, Search.Begins (T.ctx i) (memory i) (seeds i) (start 0 i)) :
    Crew.Yields (T.Round plan.purpose)
      (fun i => Search.fixedPoint (T.ctx i) (plan.rule i) (memory i) (seeds i))
      fun i => (ready rounds i).result.freeze := by
  rw [funext fun i => (hbegins i).fixedPoint_eq (plan.rule i)]
  exact h.yields hrounds

end Plan

end ColoredCtl

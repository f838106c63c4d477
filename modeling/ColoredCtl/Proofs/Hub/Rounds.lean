import ColoredCtl.Proofs.Hub.Phases
import ColoredCtl.Proofs.Hub.Sync

namespace ColoredCtl

variable {K : Nat} {T : Type}

/-- Where a partner goes on behind the barrier. -/
def Meeting.next (meeting : Meeting) (received : Option (List T)) : Place T :=
  match meeting with
  | .written => .looking
  | .taken => .clearing 0 received
  | .cleared => .idle

namespace Hub

/-- What the slots and the flag have to do with the places of the partners, by the last meeting. -/
inductive Shared (M : Payloads K T) (h : Hub K T) : Prop
  | filling {r : Nat} (hgeneration : h.generation = 3 * r)
      (hphase : Filling M r h.slots h.sent h.place)
  | draining {r : Nat} (hgeneration : h.generation = 3 * r + 1)
      (hphase : Draining M r h.slots h.sent h.place)
  | cleaning {r : Nat} (hgeneration : h.generation = 3 * r + 2)
      (hphase : Cleaning h.slots h.sent h.place)

variable {M : Payloads K T} {h h' : Hub K T} {i : Fin K}

theorem Shared.filling_of (hs : Shared M h) {r : Nat} (hgeneration : h.generation = 3 * r) :
    Filling M r h.slots h.sent h.place := by
  cases hs with
  | @filling r' hr hphase =>
    obtain rfl : r' = r := by omega
    exact hphase
  | draining hr => omega
  | cleaning hr => omega

theorem Shared.draining_of (hs : Shared M h) {r : Nat} (hgeneration : h.generation = 3 * r + 1) :
    Draining M r h.slots h.sent h.place := by
  cases hs with
  | filling hr => omega
  | @draining r' hr hphase =>
    obtain rfl : r' = r := by omega
    exact hphase
  | cleaning hr => omega

theorem Shared.cleaning_of (hs : Shared M h) {r : Nat} (hgeneration : h.generation = 3 * r + 2) :
    Cleaning h.slots h.sent h.place := by
  cases hs with
  | filling hr => omega
  | draining hr => omega
  | cleaning _ hphase => exact hphase

theorem Shared.congr (hs : Shared M h) (hgeneration : h'.generation = h.generation)
    (hslots : h'.slots = h.slots) (hsent : h'.sent = h.sent) (hplace : h'.place = h.place) :
    Shared M h' := by
  cases hs with
  | filling hr hphase => exact .filling (hgeneration.trans hr) (by rwa [hslots, hsent, hplace])
  | draining hr hphase => exact .draining (hgeneration.trans hr) (by rwa [hslots, hsent, hplace])
  | cleaning hr hphase => exact .cleaning (hgeneration.trans hr) (by rwa [hslots, hsent, hplace])

/-- What is in the hub is in order: in the slots, with the partners and among the outcomes. -/
structure Consistent (M : Payloads K T) (h : Hub K T) : Prop where
  shared : Shared M h
  holds : ∀ i, (h.place i).Holds M (h.log i).length i
  outcome : ∀ {i : Fin K} {r : Nat} {outcome : Outcome T}, (h.log i)[r]? = some outcome →
    outcome = .ok (M.due r i)

theorem consistent_start (M : Payloads K T) : Consistent M (start K T) where
  shared := .filling (r := 0) rfl (filling_zero (fun _ _ => rfl) (fun _ _ => rfl) fun _ => rfl)
  holds _ := trivial
  outcome hfound := by simp [start] at hfound

/-- A partner that comes to the barrier after taking its column has what it is to get. -/
theorem Comes.eq_due {p : Place T} {meeting : Meeting} {received : Option (List T)}
    (hcomes : Comes i p meeting received) {r : Nat} (hholds : p.Holds M r i)
    (hmeeting : meeting ≠ .written) : received = M.due r i := by
  cases hcomes with
  | written => exact absurd rfl hmeeting
  | nothing =>
    have hnone : Exchange.anySent (M.rows r) = false := hholds
    rw [Payloads.due, hnone]
    rfl
  | taken hdone =>
    obtain ⟨hsent, hpayloads⟩ := hholds
    rw [Payloads.due, hsent, hpayloads, M.gathered_of_le r i hdone]
    rfl
  | cleared => exact hholds

theorem holds_waiting_iff {meeting : Meeting} {since r : Nat} {received : Option (List T)} :
    (Place.waiting meeting since received).Holds M r i ↔
      (meeting ≠ .written → received = M.due r i) := by
  cases meeting with
  | written => simp [Place.Holds]
  | taken => exact ⟨fun h _ => h, fun h => h (by decide)⟩
  | cleared => exact ⟨fun h _ => h, fun h => h (by decide)⟩

theorem holds_proceed {meeting : Meeting} {received : Option (List T)}
    (hreceived : meeting ≠ .written → received = M.due (h.log i).length i) :
    ((h.proceed i meeting received).place i).Holds M ((h.proceed i meeting received).log i).length i := by
  cases meeting with
  | written =>
    rw [proceed, goTo_place, Function.update_self]
    trivial
  | taken =>
    rw [proceed, goTo_place, Function.update_self]
    exact hreceived (by decide)
  | cleared =>
    rw [proceed, leave_place, Function.update_self]
    trivial

/-- What the partner that takes a step has afterwards. -/
theorem Consistent.holds_move (hc : Consistent M h) (hs : h.Synced) (hopen : h.aborted = false)
    (hmove : Move M h i h') : (h'.place i).Holds M (h'.log i).length i := by
  have hholds := hc.holds i
  have hin := hs.inStep hopen i
  cases hmove with
  | enter => simp [Place.Holds]
  | mark => simp [Place.Holds]
  | write => simp [Place.Holds]
  | look hplace =>
    have hgeneration := hin.generation_eq (by rw [hplace]; rfl)
    rw [met, hplace] at hgeneration
    have hsent := (hc.shared.draining_of hgeneration).sent_eq
    rw [goTo_place, Function.update_self, goTo_log, hsent]
    cases hany : Exchange.anySent (M.rows (h.log i).length) with
    | false => exact hany
    | true => exact ⟨hany, rfl⟩
  | @take sender payloads hplace =>
    have hgeneration := hin.generation_eq (by rw [hplace]; rfl)
    rw [met, hplace] at hgeneration
    have hslot := (hc.shared.draining_of hgeneration).slot sender i
    rw [hplace] at hholds
    obtain ⟨hsent, hpayloads⟩ := hholds
    rw [if_neg (by simp [hplace, Place.took])] at hslot
    rw [goTo_place, Function.update_self]
    refine ⟨hsent, ?_⟩
    rw [hslot, hpayloads]
    exact (M.gathered_succ _ i sender).symm
  | clear hplace =>
    rw [hplace] at hholds
    rw [goTo_place, Function.update_self]
    exact hholds
  | reset hplace =>
    rw [hplace] at hholds
    rw [goTo_place, Function.update_self]
    exact hholds
  | wait hcomes =>
    change (Function.update h.place i _ i).Holds M (h.log i).length i
    rw [Function.update_self]
    exact holds_waiting_iff.2 (hcomes.eq_due hholds)
  | last hcomes => exact holds_proceed (hcomes.eq_due hholds)
  | pass hplace =>
    rw [hplace] at hholds
    exact holds_proceed (holds_waiting_iff.1 hholds)
  | refuse _ haborted =>
    rw [hopen] at haborted
    cases haborted
  | giveUp _ _ haborted =>
    rw [hopen] at haborted
    cases haborted

theorem Consistent.outcome_proceed (hc : Consistent M h) {g : Hub K T} (hlog : g.log = h.log)
    {meeting : Meeting} {received : Option (List T)}
    (hreceived : meeting ≠ .written → received = M.due (h.log i).length i) {j : Fin K} {r : Nat}
    {outcome : Outcome T} (hfound : ((g.proceed i meeting received).log j)[r]? = some outcome) :
    outcome = .ok (M.due r j) := by
  cases meeting with
  | cleared =>
    obtain hold | ⟨rfl, rfl, rfl⟩ := getElem?_log_leave hfound
    · exact hc.outcome (hlog ▸ hold)
    · rw [hlog, hreceived (by decide)]
  | _ => exact hc.outcome (hlog ▸ hfound)

/-- The outcomes after a step: a round ends with what the partner was to get. -/
theorem Consistent.outcome_move (hc : Consistent M h) (hopen : h.aborted = false)
    (hmove : Move M h i h') {j : Fin K} {r : Nat} {outcome : Outcome T}
    (hfound : (h'.log j)[r]? = some outcome) : outcome = .ok (M.due r j) := by
  have hholds := hc.holds i
  cases hmove with
  | last hcomes => exact hc.outcome_proceed (g := h.complete) rfl (hcomes.eq_due hholds) hfound
  | pass hplace =>
    rw [hplace] at hholds
    exact hc.outcome_proceed rfl (holds_waiting_iff.1 hholds) hfound
  | refuse _ haborted =>
    rw [hopen] at haborted
    cases haborted
  | giveUp _ _ haborted =>
    rw [hopen] at haborted
    cases haborted
  | _ => exact hc.outcome hfound

theorem proceed_place_eq (meeting : Meeting) (received : Option (List T)) :
    (h.proceed i meeting received).place = Function.update h.place i (meeting.next received) := by
  cases meeting <;> rfl

@[simp] theorem proceed_slots (meeting : Meeting) (received : Option (List T)) :
    (h.proceed i meeting received).slots = h.slots := by cases meeting <;> rfl

@[simp] theorem proceed_sent (meeting : Meeting) (received : Option (List T)) :
    (h.proceed i meeting received).sent = h.sent := by cases meeting <;> rfl

/-- When the last partner comes to the barrier, all others wait for the same meeting. -/
theorem Synced.place_of_last (hs : h.Synced) {meeting : Meeting} {received : Option (List T)}
    (hcomes : Comes i (h.place i) meeting received) (hopen : h.aborted = false)
    (hall : h.arrived + 1 = K) {j : Fin K} (hj : j ≠ i) :
    ∃ held, h.place j = .waiting meeting h.generation held := by
  have hsince := hs.since?_of_last hopen hall hcomes.since?_eq hj
  have hmet := ((hs.inStep hopen j).of_waiting hsince).1
  rw [(hs.inStep hopen i).generation_eq hcomes.since?_eq, met, met, hcomes.index_eq] at hmet
  cases hplace : h.place j with
  | waiting other since held =>
    rw [hplace] at hsince hmet
    cases hsince
    obtain rfl := Meeting.eq_of_met hmet
    exact ⟨held, rfl⟩
  | _ =>
    rw [hplace] at hsince
    cases hsince

/-- The slots and the flag after a partner has come to the barrier to wait. -/
theorem Consistent.shared_wait (hc : Consistent M h) (hs : h.Synced) (hopen : h.aborted = false)
    {meeting : Meeting} {received : Option (List T)} (hcomes : Comes i (h.place i) meeting received) :
    Shared M (h.goTo i (.waiting meeting h.generation received)) := by
  have hholds := hc.holds i
  have hgeneration := (hs.inStep hopen i).generation_eq hcomes.since?_eq
  unfold met at hgeneration
  generalize hplace : h.place i = p at hcomes hholds hgeneration
  cases hcomes with
  | @written next marked hdone =>
    refine .filling hgeneration ((hc.shared.filling_of hgeneration).move (fun receiver => ?_) (.inl rfl))
    have hlt := receiver.isLt
    rw [hplace]
    exact (decide_eq_true (by omega)).symm
  | nothing =>
    have hnone : Exchange.anySent (M.rows (h.log i).length) = false := hholds
    refine .draining hgeneration ((hc.shared.draining_of hgeneration).move fun sender => .inr ⟨rfl, ?_⟩)
    rw [(hc.shared.draining_of hgeneration).slot, hplace]
    by_contra hpayload
    rw [(M.anySent_rows _).2 ⟨sender, i, Option.isSome_iff_ne_none.2 hpayload⟩] at hnone
    cases hnone
  | @taken next payloads hdone =>
    refine .draining hgeneration ((hc.shared.draining_of hgeneration).move fun sender => .inl ?_)
    have hlt := sender.isLt
    rw [hplace]
    exact (decide_eq_true (by omega)).symm
  | @cleared next _ hdone hreset =>
    refine .cleaning hgeneration ((hc.shared.cleaning_of hgeneration).move fun hzero _ => ?_)
    rw [hplace]
    exact decide_eq_true (hreset hzero)

/-- The slots and the flag when all have come to the barrier. -/
theorem Shared.complete (hs : Shared M h) {meeting : Meeting} {r : Nat}
    (hgeneration : h.generation = 3 * r + meeting.index)
    (hplace : ∀ j, ∃ since held, h.place j = .waiting meeting since held) (i : Fin K) :
    Shared M h.complete := by
  cases meeting with
  | written =>
    refine .draining (congrArg (· + 1) hgeneration) ((hs.filling_of hgeneration).draining ?_ ?_)
    · intro sender receiver
      obtain ⟨since, held, hj⟩ := hplace sender
      rw [hj]
      rfl
    · intro receiver sender
      obtain ⟨since, held, hj⟩ := hplace receiver
      rw [complete_place, hj]
      rfl
  | taken =>
    refine .cleaning (congrArg (· + 1) hgeneration) ⟨fun sender receiver => ?_, fun {j} _ hreset => ?_⟩
    · obtain ⟨since, held, hj⟩ := hplace receiver
      rw [complete_slots, (hs.draining_of hgeneration).slot, hj]
      rfl
    · obtain ⟨since, held, hj⟩ := hplace j
      rw [complete_place, hj] at hreset
      cases hreset
  | cleared =>
    have hclean := hs.cleaning_of hgeneration
    have hsent : h.sent = false := by
      obtain ⟨since, held, hj⟩ := hplace ⟨0, i.pos⟩
      refine hclean.sent_eq (i := ⟨0, i.pos⟩) rfl ?_
      rw [hj]
      rfl
    refine .filling (r := r + 1) ?_ ?_
    · rw [complete_generation, hgeneration, Meeting.index]
      omega
    · rw [complete_sent, hsent]
      refine filling_zero hclean.slot (fun j receiver => ?_) fun j => ?_
      · obtain ⟨since, held, hj⟩ := hplace j
        rw [complete_place, hj]
        rfl
      · obtain ⟨since, held, hj⟩ := hplace j
        rw [complete_place, hj]
        rfl

/-- The slots and the flag after a partner has left the barrier. -/
theorem Shared.proceed (hs : Shared M h) {meeting : Meeting} {since r : Nat} {received : Option (List T)}
    (hgeneration : h.generation = 3 * r + meeting.index + 1)
    (hplace : h.place i = .waiting meeting since received) :
    Shared M (h.proceed i meeting received) := by
  cases meeting with
  | written =>
    refine .draining hgeneration ((hs.draining_of hgeneration).move fun sender => .inl ?_)
    rw [hplace]
    rfl
  | taken =>
    refine .cleaning hgeneration ((hs.cleaning_of hgeneration).move fun _ hreset => ?_)
    cases hreset
  | cleared =>
    have hnext : h.generation = 3 * (r + 1) := by
      rw [hgeneration, Meeting.index]
      omega
    refine .filling hnext ((hs.filling_of hnext).move (fun receiver => ?_) (.inl rfl))
    rw [hplace]
    rfl

/-- The slots and the flag after a step. -/
theorem Consistent.shared_move (hc : Consistent M h) (hs : h.Synced) (hopen : h.aborted = false)
    (hmove : Move M h i h') : Shared M h' := by
  have hin := hs.inStep hopen i
  cases hmove with
  | enter hplace =>
    have hgeneration := hin.generation_of hplace rfl
    refine .filling hgeneration ((hc.shared.filling_of hgeneration).move (fun receiver => ?_) (.inl rfl))
    rw [hplace]
    rfl
  | mark hplace hpayload =>
    have hgeneration := hin.generation_of hplace rfl
    exact .filling hgeneration ((hc.shared.filling_of hgeneration).mark hplace hpayload)
  | write hplace hmarked =>
    have hgeneration := hin.generation_of hplace rfl
    exact .filling hgeneration ((hc.shared.filling_of hgeneration).write hplace hmarked)
  | look hplace =>
    have hgeneration := hin.generation_of hplace rfl
    refine .draining hgeneration ((hc.shared.draining_of hgeneration).move fun sender => .inl ?_)
    rw [hplace]
    cases h.sent <;> rfl
  | take hplace =>
    have hgeneration := hin.generation_of hplace rfl
    exact .draining hgeneration ((hc.shared.draining_of hgeneration).take hplace)
  | @clear receiver received hplace =>
    have hgeneration := hin.generation_of hplace rfl
    refine .cleaning hgeneration (((hc.shared.cleaning_of hgeneration).clear i receiver).move ?_)
    intro _ hreset
    have hlt := receiver.isLt
    have hpast := of_decide_eq_true hreset
    omega
  | reset hplace =>
    have hgeneration := hin.generation_of hplace rfl
    exact .cleaning hgeneration ⟨(hc.shared.cleaning_of hgeneration).slot, fun _ _ => rfl⟩
  | wait hcomes => exact (hc.shared_wait hs hopen hcomes).congr rfl rfl rfl rfl
  | @last meeting received hcomes _ hall =>
    -- It is as if the partner had waited for the meeting too.
    let waited := h.goTo i (.waiting meeting h.generation received)
    have hgeneration : waited.generation = 3 * (h.log i).length + meeting.index := by
      rw [← hcomes.index_eq]
      exact hin.generation_eq hcomes.since?_eq
    have hwaiting : ∀ j, ∃ since held, waited.place j = .waiting meeting since held := by
      intro j
      by_cases hj : j = i
      · subst hj
        exact ⟨_, _, Function.update_self ..⟩
      · obtain ⟨held, hheld⟩ := hs.place_of_last hcomes hopen hall hj
        exact ⟨_, held, (Function.update_of_ne hj _ _).trans hheld⟩
    have hmet : Shared M waited.complete :=
      (hc.shared_wait hs hopen hcomes).complete hgeneration hwaiting i
    refine (hmet.proceed (congrArg (· + 1) hgeneration) (Function.update_self ..)).congr ?_ ?_ ?_ ?_
    · rw [proceed_generation, proceed_generation]
      rfl
    · rw [proceed_slots, proceed_slots]
      rfl
    · rw [proceed_sent, proceed_sent]
      rfl
    · rw [proceed_place_eq, proceed_place_eq]
      exact (Function.update_idem ..).symm
  | pass hplace hover =>
    obtain ⟨hmet, hnext⟩ := hin.of_waiting (by rw [hplace]; rfl)
    refine hc.shared.proceed (r := (h.log i).length) ?_ hplace
    rw [hnext.resolve_left hover, hmet, met, hplace]
    rfl
  | refuse _ haborted =>
    rw [hopen] at haborted
    cases haborted
  | giveUp _ _ haborted =>
    rw [hopen] at haborted
    cases haborted

/-- A step keeps everything in order, unless the hub is aborted. -/
theorem Consistent.move (hc : Consistent M h) (hs : h.Synced) (hopen : h.aborted = false)
    (hmove : Move M h i h') : Consistent M h' := by
  refine ⟨hc.shared_move hs hopen hmove, fun j => ?_, hc.outcome_move hopen hmove⟩
  by_cases hj : j = i
  · subst hj
    exact hc.holds_move hs hopen hmove
  · obtain ⟨hplace, hlog⟩ := hmove.of_ne hj
    rw [hplace, hlog]
    exact hc.holds j

theorem Reachable.consistent (hreach : Reachable M h) (hopen : h.aborted = false) : Consistent M h := by
  induction hreach with
  | refl => exact consistent_start M
  | @tail g g' hbefore hstep ih =>
    cases hstep with
    | advance i hstep =>
      have hmove := Move.of_advance hstep
      rw [hmove.aborted_eq] at hopen
      exact (ih hopen).move (Reachable.synced hbefore) hopen hmove
    | abort => cases hopen

/-- What a partner has of a round is what the exchange delivers to it, and nothing of any other round. -/
def Isolated (M : Payloads K T) (log : Fin K → List (Outcome T)) (i : Fin K) (r : Nat)
    (outcome : Outcome T) : Prop :=
  ∃ received, outcome = .ok received ∧
    (∃ deliveries, Exchange.round false (List.ofFn fun sender => some (List.ofFn (M r sender))) =
      some deliveries ∧ deliveries[i.val]? = some received) ∧
    (received = none ↔ ∀ sender receiver, M r sender receiver = none) ∧
    (∀ payloads, received = some payloads →
      payloads = (List.finRange K).filterMap fun sender => M r sender i) ∧
    ∀ j other, (log j)[r]? = some (.ok other) → (other = none ↔ received = none)

theorem Consistent.isolated (hc : Consistent M h) {i : Fin K} {r : Nat} {outcome : Outcome T}
    (hfound : (h.log i)[r]? = some outcome) : Isolated M h.log i r outcome := by
  refine ⟨M.due r i, hc.outcome hfound, ⟨_, M.deliver_rows r, by simp⟩, M.due_eq_none_iff r i,
    fun payloads hpayloads => ?_, fun j other hother => ?_⟩
  · unfold Payloads.due at hpayloads
    split at hpayloads
    · cases hpayloads
      exact M.column_rows r i
    · cases hpayloads
  · cases hc.outcome hother
    rw [M.due_eq_none_iff, M.due_eq_none_iff]

/-- Whatever the order of the steps, a round gives each partner what the exchange delivers to it: nothing
if nobody sent anything, and else the payloads for it in the order of the senders. -/
theorem round_isolated (hreach : Reachable M h) (hopen : h.aborted = false) {i : Fin K} {r : Nat}
    {outcome : Outcome T} (hfound : (h.log i)[r]? = some outcome) :
    ∃ received, outcome = .ok received ∧
      (∃ deliveries, Exchange.round false (List.ofFn fun sender => some (List.ofFn (M r sender))) =
        some deliveries ∧ deliveries[i.val]? = some received) ∧
      (received = none ↔ ∀ sender receiver, M r sender receiver = none) ∧
      (∀ payloads, received = some payloads →
        payloads = (List.finRange K).filterMap fun sender => M r sender i) ∧
      ∀ j other, (h.log j)[r]? = some (.ok other) → (other = none ↔ received = none) :=
  (hreach.consistent hopen).isolated hfound

/-- The first of two partners sends something to the second one, in the first round only. -/
def oneLetter : Payloads 2 Nat :=
  fun r sender receiver => if r = 0 ∧ sender < receiver then some 100 else none

/-- Two rounds with one letter: the second round has nothing of the first. -/
theorem round_isolated_oneLetter : ∃ h : Hub 2 Nat, Reachable oneLetter h ∧ h.aborted = false ∧
    h.log 0 = [.ok (some []), .ok none] ∧ h.log 1 = [.ok (some [100]), .ok none] ∧
      ∃ received, (.ok none : Outcome Nat) = .ok received ∧
        (∃ deliveries, Exchange.round false
            (List.ofFn fun sender => some (List.ofFn (oneLetter 1 sender))) = some deliveries ∧
          deliveries[1]? = some received) ∧
        (received = none ↔ ∀ sender receiver, oneLetter 1 sender receiver = none) ∧
        (∀ payloads, received = some payloads →
          payloads = (List.finRange 2).filterMap fun sender => oneLetter 1 sender 1) ∧
        ∀ j other, (h.log j)[1]? = some (.ok other) → (other = none ↔ received = none) := by
  have hrun : ∃ h : Hub 2 Nat, run oneLetter
      (List.replicate 5 (some 0) ++ List.replicate 4 (some 1) ++ List.replicate 5 (some 0) ++
        List.replicate 4 (some 1) ++ List.replicate 5 (some 0) ++ List.replicate 3 (some 1) ++
        List.replicate 5 (some 0) ++ List.replicate 4 (some 1) ++ List.replicate 3 (some 0) ++
        List.replicate 2 (some 1) ++ List.replicate 5 (some 0) ++ List.replicate 3 (some 1) ++
        [some 0]) (start 2 Nat) = some h ∧ h.aborted = false ∧
      h.log 0 = [.ok (some []), .ok none] ∧ h.log 1 = [.ok (some [100]), .ok none] :=
    ⟨_, rfl, rfl, rfl, rfl⟩
  obtain ⟨h, hrun, hopen, hfirst, hsecond⟩ := hrun
  have hfound : (h.log 1)[1]? = some (.ok none) := by rw [hsecond]; rfl
  exact ⟨h, steps_of_run hrun, hopen, hfirst, hsecond,
    round_isolated (steps_of_run hrun) hopen hfound⟩

end Hub

end ColoredCtl

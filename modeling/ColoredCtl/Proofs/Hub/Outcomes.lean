import ColoredCtl.Proofs.Hub.Abort
import ColoredCtl.Proofs.Hub.Rounds

/-!
The outcomes of rounds, aborted or not.

A partner that has come to the last meeting of a round holds what it is to get. After an abort nobody
comes to a meeting any more. So whoever still leaves a round with a result has the result that it would
have had without the abort.
-/

namespace ColoredCtl.Hub

variable {K : Nat} {T : Type} {M : Payloads K T} {h h' : Hub K T} {i : Fin K}

/-- The next step of a partner depends on its own payloads in its own round, and on no other payloads. -/
theorem advance_congr {M' : Payloads K T} (hrow : M (h.log i).length i = M' (h.log i).length i) :
    h.advance M i = h.advance M' i := by
  unfold advance
  rw [hrow]

/-- A partner is in a round after its step, or it has just left one. -/
theorem Move.inside_or_left (hmove : Move M h i h') :
    h'.place i ≠ .idle ∧ h'.log i = h.log i ∨
      h'.place i = .idle ∧ ∃ outcome, h'.log i = h.log i ++ [outcome] := by
  cases hmove with
  | @last meeting received _ _ _ => cases meeting <;> simp [proceed]
  | @pass meeting since received _ _ => cases meeting <;> simp [proceed]
  | _ => simp

/-- A partner that is between two rounds enters one with its next step. -/
theorem Move.of_idle (hmove : Move M h i h') (hplace : h.place i = .idle) :
    h'.place i ≠ .idle ∧ h'.log i = h.log i := by
  cases hmove with
  | enter => simp
  | wait hcomes =>
    rw [hplace] at hcomes
    cases hcomes
  | last hcomes =>
    rw [hplace] at hcomes
    cases hcomes
  | refuse hcomes =>
    rw [hplace] at hcomes
    cases hcomes
  | mark h | write h | look h | take h | clear h | reset h | pass h | giveUp h =>
    rw [hplace] at h
    cases h

section Arrived

theorem Move.arrived_lt (hmove : Move M h i h') (harrived : h.arrived < K) : h'.arrived < K := by
  cases hmove with
  | wait _ _ hmore => exact Nat.lt_of_le_of_ne harrived hmore
  | last =>
    rw [proceed_arrived]
    exact i.pos
  | pass =>
    rw [proceed_arrived]
    exact harrived
  | _ => exact harrived

/-- Never have all partners come to the barrier without the next generation having begun. -/
theorem Reachable.arrived_lt (hreach : Reachable M h) (hpos : 0 < K) : h.arrived < K := by
  induction hreach with
  | refl => exact hpos
  | tail _ hstep ih =>
    cases hstep with
    | advance i hstep => exact (Move.of_advance hstep).arrived_lt ih
    | abort => exact ih

end Arrived

/-- Where one partner has a result of a round, all have begun that round. -/
theorem Synced.lt_begun_of_ok (hs : h.Synced) {r : Nat} {received : Option (List T)}
    (hok : (h.log i)[r]? = some (.ok received)) (j : Fin K) : r < h.begun j := by
  have hmet := hs.le_of_ok hok
  have hindex := (h.place j).index_lt
  unfold begun
  obtain hin | hexpelled := hs.partner j
  · split
    · next hplace =>
      rw [hin.generation_of hplace rfl, Place.index] at hmet
      omega
    · cases hsince : (h.place j).since? with
      | none =>
        rw [hin.generation_eq hsince, met] at hmet
        omega
      | some since =>
        obtain ⟨hwaits, _⟩ := hin.of_waiting hsince
        rw [met] at hwaits
        omega
  · have hlate := hexpelled.generation_lt
    split <;> omega

/-- What the partners hold at the end of a round, and have of earlier rounds, is what they were to get. -/
structure Kept (M : Payloads K T) (h : Hub K T) : Prop where
  held : ∀ {i : Fin K} {since : Nat} {received : Option (List T)},
    h.place i = .waiting .cleared since received → received = M.due (h.log i).length i
  outcome : ∀ {i : Fin K} {r : Nat} {received : Option (List T)},
    (h.log i)[r]? = some (.ok received) → received = M.due r i

theorem Consistent.kept (hc : Consistent M h) : Kept M h := by
  refine ⟨fun {i since received} hplace => ?_, fun hfound => ?_⟩
  · have hholds := hc.holds i
    rw [hplace] at hholds
    exact hholds
  · exact Except.ok.inj (hc.outcome hfound)

theorem Kept.abort (hk : Kept M h) : Kept M h.abort := ⟨hk.held, hk.outcome⟩

theorem Kept.setSent (hk : Kept M h) (sent : Bool) : Kept M (h.setSent sent) := ⟨hk.held, hk.outcome⟩

theorem Kept.setSlot (hk : Kept M h) (sender receiver : Fin K) (payload : Option T) :
    Kept M (h.setSlot sender receiver payload) :=
  ⟨hk.held, hk.outcome⟩

/-- A partner goes somewhere else than to the last meeting. -/
theorem Kept.goTo (hk : Kept M h) {q : Place T} (hq : ∀ since received, q ≠ .waiting .cleared since received) :
    Kept M (h.goTo i q) := by
  refine ⟨fun {j since received} hplace => ?_, hk.outcome⟩
  by_cases hj : j = i
  · subst hj
    rw [goTo_place, Function.update_self] at hplace
    exact absurd hplace (hq since received)
  · rw [goTo_place, Function.update_of_ne hj] at hplace
    exact hk.held hplace

theorem Kept.leave (hk : Kept M h) {outcome : Outcome T}
    (houtcome : ∀ received, outcome = .ok received → received = M.due (h.log i).length i) :
    Kept M (h.leave i outcome) := by
  refine ⟨fun {j since received} hplace => ?_, fun hfound => ?_⟩
  · by_cases hj : j = i
    · subst hj
      rw [leave_place, Function.update_self] at hplace
      cases hplace
    · rw [leave_place, Function.update_of_ne hj] at hplace
      rw [leave_log, Function.update_of_ne hj]
      exact hk.held hplace
  · obtain hold | ⟨rfl, rfl, hnew⟩ := getElem?_log_leave hfound
    · exact hk.outcome hold
    · exact houtcome _ hnew.symm

/-- After an abort a step leaves what was kept as it is. -/
theorem Kept.move (hk : Kept M h) (haborted : h.aborted = true) (hmove : Move M h i h') : Kept M h' := by
  cases hmove with
  | enter => exact hk.goTo (by simp)
  | mark => exact (hk.setSent true).goTo (by simp)
  | write => exact (hk.setSlot _ _ _).goTo (by simp)
  | look => exact hk.goTo (by simp)
  | take => exact (hk.setSlot _ _ _).goTo (by simp)
  | clear => exact (hk.setSlot _ _ _).goTo (by simp)
  | reset => exact (hk.setSent false).goTo (by simp)
  | wait _ hopen _ =>
    rw [haborted] at hopen
    cases hopen
  | last _ hopen _ =>
    rw [haborted] at hopen
    cases hopen
  | refuse => exact hk.leave (by simp)
  | giveUp => exact hk.leave (by simp)
  | @pass meeting since received hplace _ =>
    cases meeting with
    | written => exact hk.goTo (by simp)
    | taken => exact hk.goTo (by simp)
    | cleared =>
      refine hk.leave fun other heq => ?_
      cases heq
      exact hk.held hplace

/-- Whoever has a result of a round has what it was to get, whether the hub was aborted or not. -/
theorem Reachable.kept (hreach : Reachable M h) : Kept M h := by
  induction hreach with
  | refl => exact (consistent_start M).kept
  | @tail g g' hbefore hstep ih =>
    cases hstep with
    | advance i hstep =>
      have hmove := Move.of_advance hstep
      cases haborted : g.aborted with
      | true => exact ih.move haborted hmove
      | false =>
        exact ((Reachable.consistent hbefore haborted).move (Reachable.synced hbefore) haborted hmove).kept
    | abort => exact ih.abort

end ColoredCtl.Hub

import ColoredCtl.Proofs.Channel.Delivery
import ColoredCtl.Proofs.Check.Crew
import Mathlib.Logic.Function.Iterate
import Mathlib.Order.WellFounded

namespace ColoredCtl.Crew

variable {C α β : Type} {K : Nat} {Round : Rounds C K} {medium : Medium C}

/-- The workers of a crew after a round, if all of them wait for one. -/
def next (medium : Medium C) (crew : List (Worker C α)) : List (Worker C α) :=
  match crew.mapM Worker.out? with
  | some outs => List.zipWith Worker.receive crew (medium.round false (outs.map some))
  | none => crew

/-- The workers of a crew after a number of rounds. -/
def after (medium : Medium C) (rounds : Nat) (crew : List (Worker C α)) : List (Worker C α) :=
  (next medium)^[rounds] crew

theorem after_succ (medium : Medium C) (rounds : Nat) (crew : List (Worker C α)) :
    after medium (rounds + 1) crew = after medium rounds (next medium crew) :=
  Function.iterate_succ_apply ..

theorem after_succ_eq_next (medium : Medium C) (rounds : Nat) (crew : List (Worker C α)) :
    after medium (rounds + 1) crew = next medium (after medium rounds crew) :=
  Function.iterate_succ_apply' ..

theorem next_of_round {w : Fin K → Worker C α} {out : Fin K → Outgoing C}
    {results : Fin K → Except (Failure ChannelError) (Incoming C)}
    (hwaits : ∀ i, (w i).out? = some (out i))
    (hround : medium.round false (List.ofFn fun i => some (out i)) = List.ofFn results) :
    next medium (List.ofFn w) = List.ofFn fun i => (w i).receive (results i) := by
  have houts : (List.ofFn w).mapM Worker.out? = some (List.ofFn out) := mapM_ofFn hwaits
  have hsome : (List.ofFn out).map some = List.ofFn fun i => some (out i) := List.map_ofFn ..
  rw [next, houts]
  simp only [hsome, hround, zipWith_ofFn]

/-- Nothing happens any more when a worker does not wait for a round. -/
theorem after_of_idle {crew : List (Worker C α)} {w : Worker C α} (hw : w ∈ crew) (hidle : w.out? = none)
    (rounds : Nat) : after medium rounds crew = crew := by
  have hfixed : next medium crew = crew := by rw [next, mapM_eq_none hw hidle]
  exact Function.iterate_fixed hfixed rounds

/-- All workers wait for a round, or all have come to their results. -/
def Together (r : Fin K → α) (w : Fin K → Worker C α) : Prop :=
  (∀ i, (w i).out?.isSome = true) ∨ ∀ i, w i = .done (r i)

theorem Together.forall_mem {r : Fin K → α} {w : Fin K → Worker C α} (h : Together r w) :
    (∀ v ∈ List.ofFn w, v.out?.isSome = true) ∨ ∀ v ∈ List.ofFn w, ∃ a, v = .done a := by
  simp only [List.forall_mem_ofFn_iff]
  exact h.imp_right fun hdone i => ⟨r i, hdone i⟩

/-- Some worker has failed because something could not be written or read, and no worker has failed for
another reason, but for being told that the round was aborted. -/
structure Broken (r : Fin K → α) (w : Fin K → Worker C α) : Prop where
  each : ∀ i, (w i).out?.isSome = true ∨ w i = .done (r i) ∨
    ∃ cause, w i = .fail (.error (.channel cause)) ∧ (cause = .aborted ∨ cause.OfWire)
  blame : ∃ i cause, w i = .fail (.error (.channel cause)) ∧ cause.OfWire

/-- The rounds succeed over the medium, unless something cannot be written or read. -/
def Attempted (Round : Rounds C K) (medium : Medium C) : Prop :=
  ∀ out incoming, Round out incoming → ∃ results,
    medium.round false (List.ofFn fun i => some (out i)) = List.ofFn results ∧ Concludes incoming results

theorem Yields.together {w : Fin K → Worker C α} {r : Fin K → α} (h : Yields Round w r) : Together r w := by
  cases h with
  | done => exact .inr fun i => rfl
  | meet => exact .inl fun i => rfl

/-- A round that does not succeed for all leaves a broken crew. -/
theorem Yields.broken (out : Fin K → Outgoing C) {resume : Fin K → Incoming C → Worker C α}
    {incoming : Fin K → Incoming C} {r : Fin K → α}
    (hrest : Yields Round (fun i => resume i (incoming i)) r)
    {results : Fin K → Except (Failure ChannelError) (Incoming C)} (hresults : Concludes incoming results)
    {i : Fin K} {cause : ChannelError} (hcause : results i = .error (.error cause)) (hwire : cause.OfWire) :
    Broken r fun i => (Worker.meet (out i) (resume i)).receive (results i) where
  each j := by
    obtain hok | ⟨cause, herror, hkind⟩ := hresults.each j
    · rw [hok]
      exact hrest.together.imp (fun hwaits => hwaits j) fun hdone => .inl (hdone j)
    · rw [herror]
      exact .inr (.inr ⟨cause, rfl, hkind⟩)
  blame := ⟨i, cause, by rw [hcause]; rfl, hwire⟩

theorem Broken.after_eq {r : Fin K → α} {w : Fin K → Worker C α} (h : Broken r w) (rounds : Nat) :
    after medium rounds (List.ofFn w) = List.ofFn w := by
  obtain ⟨i, cause, hfailed, _⟩ := h.blame
  exact after_of_idle (List.mem_ofFn.2 ⟨i, rfl⟩) (by rw [hfailed]; rfl) rounds

theorem after_done (r : Fin K → α) (rounds : Nat) :
    after medium rounds (List.ofFn fun i => .done (r i)) = List.ofFn fun i => .done (r i) := by
  cases K with
  | zero => exact Function.iterate_fixed (by simp [next]) rounds
  | succ K => exact after_of_idle (List.mem_ofFn.2 ⟨0, rfl⟩) rfl rounds

/-- A crew stays together, over every medium on which its rounds succeed; where a round can fail, it does
so until one fails. -/
theorem Yields.after_spec {w : Fin K → Worker C α} {r : Fin K → α} (h : Yields Round w r) (rounds : Nat) :
    ∃ w' : Fin K → Worker C α, Together r w' ∧
      (∀ medium, Held Round medium → after medium rounds (List.ofFn w) = List.ofFn w') ∧
      ∀ medium, Attempted Round medium → after medium rounds (List.ofFn w) = List.ofFn w' ∨
        ∃ b : Fin K → Worker C α, after medium rounds (List.ofFn w) = List.ofFn b ∧ Broken r b := by
  induction h generalizing rounds with
  | done r =>
    refine ⟨_, Or.inr fun i => rfl, ?_, ?_⟩
    · exact fun medium _ => after_done r rounds
    · exact fun medium _ => .inl (after_done r rounds)
  | @meet out _ _ _ hround hrest ih =>
    cases rounds with
    | zero => exact ⟨_, (Yields.meet hround hrest).together, fun _ _ => rfl, fun _ _ => .inl rfl⟩
    | succ rounds =>
      obtain ⟨w', htogether, hheld, hattempted⟩ := ih rounds
      refine ⟨w', htogether, ?_, ?_⟩
      · intro medium hmedium
        rw [after_succ, next_of_round (fun i => rfl) (hmedium _ _ hround)]
        exact hheld medium hmedium
      · intro medium hmedium
        obtain ⟨results, hresult, hconcludes⟩ := hmedium _ _ hround
        rw [after_succ, next_of_round (fun i => rfl) hresult]
        obtain hok | ⟨i, cause, hcause, hwire⟩ := hconcludes.blame
        · simp only [hok]
          exact hattempted medium hmedium
        · have hbroken := hrest.broken out hconcludes hcause hwire
          exact .inr ⟨_, hbroken.after_eq rounds, hbroken⟩

/-- The run of a crew ends after a number of rounds. -/
theorem Yields.run_eq_after {w : Fin K → Worker C α} {r : Fin K → α} (h : Yields Round w r)
    (hmedium : Attempted Round medium) :
    ∃ rounds, run medium (List.ofFn w) = (after medium rounds (List.ofFn w)).map Worker.outcome ∧
      ∃ w' : Fin K → Worker C α, after medium rounds (List.ofFn w) = List.ofFn w' ∧
        ((∀ i, w' i = .done (r i)) ∨ Broken r w') := by
  induction h with
  | done r =>
    refine ⟨0, ?_, _, rfl, .inl fun i => rfl⟩
    rw [run_done, after, Function.iterate_zero_apply, List.map_ofFn]
    rfl
  | @meet out resume incoming r hround hrest ih =>
    obtain ⟨results, hresult, hconcludes⟩ := hmedium _ _ hround
    have hnext := next_of_round (w := fun i => .meet (out i) (resume i)) (fun i => rfl) hresult
    obtain hok | ⟨i, cause, hcause, hwire⟩ := hconcludes.blame
    · obtain ⟨rounds, hrun, w', hafter, hend⟩ := ih
      obtain rfl : results = fun i => .ok (incoming i) := funext hok
      refine ⟨rounds + 1, ?_, w', ?_, hend⟩
      · rw [run_meet hresult, hrun, after_succ, hnext]
        rfl
      · rw [after_succ, hnext]
        exact hafter
    · have hbroken := hrest.broken out hconcludes hcause hwire
      refine ⟨1, ?_, _, ?_, .inr hbroken⟩
      · have hfailed : ¬∀ i, (results i).isOk = true := by
          intro hall
          have hi := hall i
          rw [hcause] at hi
          exact Bool.false_ne_true hi
        rw [run_of_round (fun i => rfl) hresult, if_neg hfailed, after_succ, hnext, after,
          Function.iterate_zero_apply, List.map_ofFn]
        rfl
      · rw [after_succ, hnext]
        exact hbroken.after_eq 0

theorem outcome_of_waits {w : Worker C α} (h : w.out?.isSome = true) :
    w.outcome = .error (.error (.channel .aborted)) := by
  cases w with
  | meet => rfl
  | done => cases h
  | fail => cases h

theorem Broken.outcome_spec {r : Fin K → α} {w : Fin K → Worker C α} (h : Broken r w) (i : Fin K) :
    (w i).outcome = .ok (r i) ∨
      ∃ cause, (w i).outcome = .error (.error (.channel cause)) ∧ (cause = .aborted ∨ cause.OfWire) := by
  obtain hwaits | hdone | ⟨cause, hfail, hkind⟩ := h.each i
  · exact .inr ⟨.aborted, outcome_of_waits hwaits, .inl rfl⟩
  · exact .inl (congrArg Worker.outcome hdone)
  · exact .inr ⟨cause, congrArg Worker.outcome hfail, hkind⟩

/-- The workers of a crew come to their results, unless something cannot be written or read. -/
theorem Yields.run_spec {w : Fin K → Worker C α} {r : Fin K → α} (h : Yields Round w r)
    (hmedium : Attempted Round medium) :
    run medium (List.ofFn w) = List.ofFn (fun i => .ok (r i)) ∨
      ∃ b : Fin K → Worker C α, run medium (List.ofFn w) = List.ofFn (fun i => (b i).outcome) ∧
        Broken r b := by
  obtain ⟨rounds, hrun, w', hafter, hdone | hbroken⟩ := h.run_eq_after hmedium
  · left
    rw [hrun, hafter, List.map_ofFn]
    exact congrArg List.ofFn (funext fun i => congrArg Worker.outcome (hdone i))
  · right
    refine ⟨w', ?_, hbroken⟩
    rw [hrun, hafter, List.map_ofFn]
    rfl

/-- What a crew does next, once it has come to results. If it does not come to them, what it would have
done next makes a difference to none but the workers that have results already. -/
theorem Yields.run_bind_cases {w : Fin K → Worker C α} {r : Fin K → α} (h : Yields Round w r)
    (hmedium : Attempted Round medium) (f : Fin K → α → Worker C β) :
    (run medium (List.ofFn w) = List.ofFn (fun i => .ok (r i)) ∧
      run medium (List.ofFn fun i => w i >>= f i) = run medium (List.ofFn fun i => f i (r i))) ∨
      ∃ b : Fin K → Worker C α, Broken r b ∧
        run medium (List.ofFn w) = List.ofFn (fun i => (b i).outcome) ∧
        run medium (List.ofFn fun i => w i >>= f i) = List.ofFn fun i => (b i >>= f i).outcome := by
  induction h with
  | done r => exact .inl ⟨run_done r, rfl⟩
  | @meet out resume incoming r hround hrest ih =>
    obtain ⟨results, hresult, hconcludes⟩ := hmedium _ _ hround
    have hsequel : (fun i => Worker.meet (out i) (resume i) >>= f i) =
        fun i => Worker.meet (out i) fun x => resume i x >>= f i := rfl
    obtain hok | ⟨i, cause, hcause, hwire⟩ := hconcludes.blame
    · obtain rfl : results = fun i => .ok (incoming i) := funext hok
      rw [hsequel, run_meet hresult, run_meet hresult]
      exact ih
    · have hfailed : ¬∀ i, (results i).isOk = true := by
        intro hall
        have hi := hall i
        rw [hcause] at hi
        exact Bool.false_ne_true hi
      refine .inr ⟨_, hrest.broken out hconcludes hcause hwire, ?_, ?_⟩
      · rw [run_of_round (fun i => rfl) hresult, if_neg hfailed]
      · rw [hsequel, run_of_round (fun i => rfl) hresult, if_neg hfailed]
        refine congrArg List.ofFn (funext fun j => congrArg Worker.outcome ?_)
        cases results j <;> rfl

/-- The first of the workers that could not write or read something: those before it have results, or
wait, or have been told that the round was aborted. -/
theorem Broken.exists_first {r : Fin K → α} {w : Fin K → Worker C α} (h : Broken r w) :
    ∃ i cause, w i = .fail (.error (.channel cause)) ∧ cause.OfWire ∧
      ∀ j < i, (w j).out?.isSome = true ∨ w j = .done (r j) ∨ w j = .fail (.error (.channel .aborted)) := by
  obtain ⟨i, ⟨cause, hcause, hwire⟩, hfirst⟩ := wellFounded_lt.has_min
    {i | ∃ cause, w i = .fail (.error (.channel cause)) ∧ cause.OfWire} h.blame
  refine ⟨i, cause, hcause, hwire, fun j hj => ?_⟩
  obtain hwaits | hdone | ⟨other, hother, rfl | hwire⟩ := h.each j
  · exact .inl hwaits
  · exact .inr (.inl hdone)
  · exact .inr (.inr hother)
  · exact absurd hj (hfirst j ⟨other, hother, hwire⟩)

end ColoredCtl.Crew

import ColoredCtl.Check.Worker
import ColoredCtl.Proofs.Outcome
import Mathlib.Tactic.Choose

/-!
Crews that come to an end.

`Crew.Yields` is a finite run of a whole crew without failure: all workers meet in the same rounds, and
in the end each worker has a result. What the rounds do is left open; it is said by a relation between
what the workers send and what they receive. `Crew.Ends` adds what is known about the results. Crews are
put together from crews, step by step, in the same way as their workers.
-/

namespace ColoredCtl.Crew

/-- What a round of a crew can be: what the workers send, and what they receive. -/
abbrev Rounds (C : Type) (K : Nat) := (Fin K → Outgoing C) → (Fin K → Incoming C) → Prop

variable {C α β : Type} {K : Nat} {Round : Rounds C K} {medium : Medium C}

/-- The crew meets in a number of rounds, all of them as stated, and comes to the results. -/
inductive Yields (Round : Rounds C K) : (Fin K → Worker C α) → (Fin K → α) → Prop
  | done (r : Fin K → α) : Yields Round (fun i => .done (r i)) r
  | meet {out : Fin K → Outgoing C} {resume : Fin K → Incoming C → Worker C α}
      {incoming : Fin K → Incoming C} {r : Fin K → α} (hround : Round out incoming)
      (hrest : Yields Round (fun i => resume i (incoming i)) r) :
      Yields Round (fun i => .meet (out i) (resume i)) r

theorem Yields.bind {w : Fin K → Worker C α} {f : Fin K → α → Worker C β} {a : Fin K → α}
    {b : Fin K → β} (hw : Yields Round w a) (hf : Yields Round (fun i => f i (a i)) b) :
    Yields Round (fun i => w i >>= f i) b := by
  induction hw with
  | done r => exact hf
  | meet hround hrest ih => exact .meet hround (ih hf)

theorem Yields.mono {Round' : Rounds C K} {w : Fin K → Worker C α} {r : Fin K → α} (h : Yields Round w r)
    (hround : ∀ out incoming, Round out incoming → Round' out incoming) : Yields Round' w r := by
  induction h with
  | done r => exact .done r
  | meet h _ ih => exact .meet (hround _ _ h) ih

/-- What is done with the results when they are there. -/
theorem Yields.map_result {w : Fin K → Worker C α} {r : Fin K → α} (h : Yields Round w r) (g : α → β) :
    Yields Round (fun i => g <$> w i) fun i => g (r i) := by
  simp only [map_eq_pure_bind]
  exact h.bind (.done fun i => g (r i))

/-- A round that all workers wait for: if it succeeds for all of them the run goes on from there, and
otherwise it ends there. -/
theorem run_of_round {w : Fin K → Worker C α} {out : Fin K → Outgoing C}
    {results : Fin K → Except (Failure ChannelError) (Incoming C)}
    (hwaits : ∀ i, (w i).out? = some (out i))
    (hround : medium.round false (List.ofFn fun i => some (out i)) = List.ofFn results) :
    run medium (List.ofFn w) =
      if ∀ i, (results i).isOk = true then run medium (List.ofFn fun i => (w i).receive (results i))
      else List.ofFn fun i => ((w i).receive (results i)).outcome := by
  cases K with
  | zero => simp [run]
  | succ K =>
    obtain ⟨resume, hfirst⟩ : ∃ resume, w 0 = .meet (out 0) resume := by
      have hout := hwaits 0
      revert hout
      cases w 0 <;> simp [Worker.out?]
    have houts : (List.ofFn fun i : Fin K => w i.succ).mapM Worker.out? =
        some (List.ofFn fun i => out i.succ) :=
      mapM_ofFn fun i => hwaits i.succ
    have hresults : medium.round false ((out 0 :: List.ofFn fun i : Fin K => out i.succ).map some) =
        results 0 :: List.ofFn fun i => results i.succ := by
      rw [List.map_cons, List.map_ofFn, ← List.ofFn_succ (f := results), ← hround, List.ofFn_succ]
      rfl
    have hothers : (List.ofFn fun i : Fin K => results i.succ).all Except.isOk = true ↔
        ∀ i : Fin K, (results i.succ).isOk = true := by
      simp [List.all_eq_true, List.mem_ofFn]
    rw [List.ofFn_succ, run, hfirst, runFrom, houts]
    cases hzero : results 0 with
    | error cause =>
      have hfailed : ¬∀ i, (results i).isOk = true := by
        rw [Fin.forall_fin_succ, hzero]
        exact fun hall => Bool.false_ne_true hall.1
      simp only [hresults, hzero]
      rw [if_neg hfailed, List.zipWith_cons_cons, zipWith_ofFn, List.map_cons, List.map_ofFn, List.ofFn_succ,
        hfirst, hzero]
      rfl
    | ok incoming =>
      have hall : (∀ i, (results i).isOk = true) ↔ ∀ i : Fin K, (results i.succ).isOk = true := by
        rw [Fin.forall_fin_succ, hzero]
        exact and_iff_right rfl
      simp only [hresults, hzero, zipWith_ofFn, hothers, hall]
      rw [List.ofFn_succ, List.ofFn_succ, hfirst, hzero, run, List.map_cons, List.map_ofFn]
      rfl

/-- A round that succeeds for all: the run goes on from there. -/
theorem run_meet {out : Fin K → Outgoing C} {resume : Fin K → Incoming C → Worker C α}
    {incoming : Fin K → Incoming C}
    (hround : medium.round false (List.ofFn fun i => some (out i)) =
      List.ofFn fun i => .ok (incoming i)) :
    run medium (List.ofFn fun i => .meet (out i) (resume i)) =
      run medium (List.ofFn fun i => resume i (incoming i)) := by
  rw [run_of_round (fun i => rfl) hround]
  exact if_pos fun i => rfl

/-- Workers that are all done have results. -/
theorem run_done (r : Fin K → α) :
    run medium (List.ofFn fun i => .done (r i)) = List.ofFn fun i => .ok (r i) := by
  cases K with
  | zero => simp [run]
  | succ K =>
    rw [List.ofFn_succ, run, runFrom]
    · simp [List.ofFn_succ, Worker.outcome, Function.comp_def]
    · simp

/-- The rounds succeed over the medium. -/
def Held (Round : Rounds C K) (medium : Medium C) : Prop :=
  ∀ out incoming, Round out incoming →
    medium.round false (List.ofFn fun i => some (out i)) = List.ofFn fun i => .ok (incoming i)

/-- What the run of a crew gives when it comes to results, over a medium that holds the rounds. -/
theorem Yields.run_eq {w : Fin K → Worker C α} {r : Fin K → α} (h : Yields Round w r)
    (hmedium : Held Round medium) :
    run medium (List.ofFn w) = List.ofFn fun i => .ok (r i) := by
  induction h with
  | done r => exact run_done r
  | meet hround _ ih => rw [run_meet (hmedium _ _ hround), ih]

/-- A selection that a worker makes by itself, step by step. -/
theorem filterMapM_eq_liftM {f : α → Worker C (Option β)} {g : α → Except Misuse (Option β)}
    (hfg : ∀ x, f x = liftM (g x)) (l : List α) : l.filterMapM f = liftM (l.filterMapM g) := by
  induction l with
  | nil => rfl
  | cons x l ih =>
    rw [List.filterMapM_cons, List.filterMapM_cons, hfg, ih]
    cases g x with
    | error cause => rfl
    | ok found =>
      cases l.filterMapM g with
      | error cause => cases found <;> rfl
      | ok rest => cases found <;> rfl

/-- The crew comes to results, and they are as stated. -/
def Ends (Round : Rounds C K) (w : Fin K → Worker C α) (Q : (Fin K → α) → Prop) : Prop :=
  ∃ r, Yields Round w r ∧ Q r

namespace Ends

variable {Q : (Fin K → α) → Prop}

theorem done {r : Fin K → α} (h : Q r) : Ends Round (fun i => .done (r i)) Q := ⟨r, .done r, h⟩

theorem imp {w : Fin K → Worker C α} {Q' : (Fin K → α) → Prop} (h : Ends Round w Q)
    (hQ : ∀ r, Q r → Q' r) : Ends Round w Q' := by
  obtain ⟨r, hr, hQr⟩ := h
  exact ⟨r, hr, hQ r hQr⟩

theorem bind {w : Fin K → Worker C α} {f : Fin K → α → Worker C β} {Q' : (Fin K → β) → Prop}
    (hw : Ends Round w Q) (hf : ∀ r, Q r → Ends Round (fun i => f i (r i)) Q') :
    Ends Round (fun i => w i >>= f i) Q' := by
  obtain ⟨a, ha, hQ⟩ := hw
  obtain ⟨b, hb, hQ'⟩ := hf a hQ
  exact ⟨b, ha.bind hb, hQ'⟩

/-- Workers that are all done. -/
theorem of_done {w : Fin K → Worker C α} {P : Fin K → α → Prop} (h : ∀ i, ∃ a, w i = .done a ∧ P i a) :
    Ends Round w fun r => ∀ i, P i (r i) := by
  choose r hr hP using h
  obtain rfl : w = fun i => .done (r i) := funext hr
  exact .done hP

/-- A step that each worker takes by itself. -/
theorem attempt {x : Fin K → Attempt α} {P : Fin K → α → Prop}
    (h : ∀ i, ∃ a, x i = .ok a ∧ P i a) :
    Ends Round (fun i => (liftM (x i) : Worker C α)) fun r => ∀ i, P i (r i) := by
  refine of_done fun i => ?_
  obtain ⟨a, ha, hP⟩ := h i
  exact ⟨a, by rw [ha]; rfl, hP⟩

/-- A step that each worker takes by itself on a growing map. -/
theorem grow {x : Fin K → Except (Failure MapError) α} {P : Fin K → α → Prop}
    (h : ∀ i, ∃ a, x i = .ok a ∧ P i a) :
    Ends Round (fun i => (liftM (Attempt.ofMap (x i)) : Worker C α)) fun r => ∀ i, P i (r i) := by
  refine attempt fun i => ?_
  obtain ⟨a, ha, hP⟩ := h i
  exact ⟨a, by rw [ha, ofMap_ok], hP⟩

/-- A step that each worker takes by itself, and that has no errors of its own. -/
theorem compute {x : Fin K → Except Misuse α} {P : Fin K → α → Prop}
    (h : ∀ i, ∃ a, x i = .ok a ∧ P i a) :
    Ends Round (fun i => (liftM (x i) : Worker C α)) fun r => ∀ i, P i (r i) := by
  refine of_done fun i => ?_
  obtain ⟨a, ha, hP⟩ := h i
  exact ⟨a, by rw [ha]; rfl, hP⟩

end Ends

end ColoredCtl.Crew

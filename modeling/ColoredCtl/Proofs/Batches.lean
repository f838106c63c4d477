import ColoredCtl.Proofs.Check.Refusal
import ColoredCtl.Proofs.Interchange

/-!
Checking several formulas at once.

The workers of a batch check its formulas one after the other, over the same medium. When they have come
to the results of one formula they go on to the next as if they had just begun; and when they fail, what
was still to be checked has no part in it. So a batch gives what its formulas give one by one, up to the
failure: it succeeds exactly when all of them do, and fails as the first one that fails.
-/

namespace ColoredCtl

open Color

namespace Checker

variable {C α β : Type}

section Sequence

variable {K : Nat} {Round : Crew.Rounds C K} {medium : Medium C} {w : Fin K → Worker C α}
  {r : Fin K → α} {f : Fin K → α → Worker C β} {s : Fin K → β}

/-- A worker that did not fail of itself waits, has results, or was told of a failure. It has results, or is
told of the failure, also when it goes on after its results. -/
theorem report_bind {b : Worker C α} {a : α} {g : α → Worker C β} (id : Nat)
    (hb : b.out?.isSome = true ∨ b = .done a ∨ b = .fail (.error (.channel .aborted)))
    (hg : (g a).out?.isSome = true ∨ ∃ value, g a = .done value) :
    (∃ value, report id (b >>= g).outcome = .ok value) ∨
      report id (b >>= g).outcome = .error (.channel .aborted) := by
  obtain hwaits | rfl | rfl := hb
  · cases b with
    | meet out resume => exact .inr rfl
    | done a => cases hwaits
    | fail cause => cases hwaits
  · change (∃ value, report id (g a).outcome = .ok value) ∨ report id (g a).outcome = _
    obtain hwaits | ⟨value, hdone⟩ := hg
    · rw [Crew.outcome_of_waits hwaits]
      exact .inr rfl
    · rw [hdone]
      exact .inl ⟨value, rfl⟩
  · exact .inr rfl

/-- A check that fails does so as the first worker that could not write or read something, whatever the
workers were to do next. -/
theorem gather_of_broken {b : Fin K → Worker C α} (h : Crew.Broken r b)
    (hf : Crew.Together s fun i => f i (r i)) :
    ∃ cause, gather (List.ofFn fun i => (b i).outcome) = .error cause ∧
      gather (List.ofFn fun i => (b i >>= f i).outcome) = .error cause := by
  obtain ⟨i, cause, hcause, hwire, hbefore⟩ := h.exists_first
  have hown : CheckError.channel cause ≠ .channel .aborted := by
    rintro ⟨⟩
    exact hwire
  have hgather {γ : Type} {g : Fin K → α → Worker C γ}
      (hg : ∀ j, (g j (r j)).out?.isSome = true ∨ ∃ value, g j (r j) = .done value) :
      gather (List.ofFn fun j => (b j >>= g j).outcome) = .error (.error (.channel cause)) := by
    rw [gather_ofFn, firstFailure_of_first i (by rw [hcause]; rfl) hown fun j hj =>
      report_bind j (hbefore j hj) (hg j)]
    rfl
  refine ⟨.error (.channel cause), ?_, hgather fun j => ?_⟩
  · have hnow := hgather (g := fun _ => pure) fun j => .inr ⟨r j, rfl⟩
    simpa only [bind_pure] using hnow
  · exact hf.imp (fun hwaits => hwaits j) fun hdone => ⟨s j, hdone j⟩

/-- The workers come to their results, or the check fails. -/
theorem gather_run (hw : Crew.Yields Round w r) (hmedium : Crew.Attempted Round medium) :
    gather (Crew.run medium (List.ofFn w)) = .ok (List.ofFn r) ∨
      ∃ cause, gather (Crew.run medium (List.ofFn w)) = .error cause := by
  obtain hrun | ⟨b, hrun, hbroken⟩ := hw.run_spec hmedium
  · left
    rw [hrun, gather_ok]
  · right
    obtain ⟨cause, hcause, _⟩ := firstFailure_of_broken hbroken
    exact ⟨_, by rw [hrun, gather_ofFn, hcause]; rfl⟩

/-- What the workers do next starts from their results; if there are none, the check has failed. -/
theorem gather_bind (hw : Crew.Yields Round w r) (hf : Crew.Yields Round (fun i => f i (r i)) s)
    (hmedium : Crew.Attempted Round medium) :
    gather (Crew.run medium (List.ofFn fun i => w i >>= f i)) =
      gather (Crew.run medium (List.ofFn w)) >>= fun _ =>
        gather (Crew.run medium (List.ofFn fun i => f i (r i))) := by
  obtain ⟨hfirst, hrun⟩ | ⟨b, hbroken, hfirst, hrun⟩ := hw.run_bind_cases hmedium f
  · rw [hfirst, hrun, gather_ok, ok_bind]
  · obtain ⟨cause, hnow, hnext⟩ := gather_of_broken hbroken hf.together
    rw [hfirst, hrun, hnow, hnext]
    rfl

end Sequence

section Batches

variable {c : Checker C} {R : Reading c.algebra} {S : Nat → Kripke} {partitions : List Partition}

variable (T : Team R c.model S c.config.partitions) (htable : c.model.stateCount ≤ Capacity.tableLimit)
  (hmake : ∀ i : Fin c.config.partitions, Context.make c.algebra c.model
    (Partition.nth c.config.strategy c.config.partitions c.model.stateCount i) = .ok (T.ctx i))
  (hcount : 0 < c.config.partitions)
  (hall : Partition.all c.config.strategy c.config.partitions c.model.stateCount = .ok partitions)
  (hattempted : Crew.Attempted (T.Round .tell) c.medium)

include htable

/-- A team comes to the maps of a formula. -/
theorem check_yields {f : Formula} (hvalid : f.validate c.model [] = .ok ()) :
    ∃ maps, Crew.Yields (T.Round .tell) (fun i => (T.ctx i).check f) maps := by
  have hends : T.Ends (fun i => (T.ctx i).check f) fun _ => True := by
    refine .bind (T.eval_spec f hvalid (Env.binds_nil [] c.model.stateCount)) fun m hm => ?_
    refine .imp (.compute (P := fun _ _ => True) fun i => ?_) fun _ _ => trivial
    obtain ⟨copy, hcopy, _⟩ := (hm i).materialize_spec htable
    exact ⟨copy, hcopy, trivial⟩
  obtain ⟨maps, hyields, _⟩ := hends
  exact ⟨maps, hyields⟩

/-- A team comes to the maps of several formulas. -/
theorem mapM_check_yields {formulas : List Formula}
    (hvalid : ∀ f ∈ formulas, f.validate c.model [] = .ok ()) :
    ∃ maps, Crew.Yields (T.Round .tell) (fun i => formulas.mapM (T.ctx i).check) maps := by
  induction formulas with
  | nil => exact ⟨fun _ => [], .done _⟩
  | cons f formulas ih =>
    obtain ⟨maps, hmaps⟩ := check_yields T htable (hvalid f List.mem_cons_self)
    obtain ⟨rest, hrest⟩ := ih fun g hg => hvalid g (List.mem_cons_of_mem f hg)
    simp only [List.mapM_cons]
    exact ⟨fun i => maps i :: rest i, hmaps.bind (hrest.bind (.done _))⟩

omit htable in
include hmake hall in
theorem map_worker (formulas : List Formula) : partitions.map (c.worker formulas) =
    List.ofFn fun i => formulas.mapM (T.ctx i).check := by
  rw [Partition.map_eq_ofFn hall]
  refine congrArg List.ofFn (funext fun i => ?_)
  rw [worker, hmake i]
  rfl

variable (hhub : c.config.partitions < 0x20000000)

include hmake hcount hall hattempted hhub

/-- The check of one formula, told by its workers. -/
theorem verify_eq_gather {f : Formula} (hvalid : f.validate c.model [] = .ok ()) :
    c.verify f = gather (Crew.run c.medium (List.ofFn fun i => (T.ctx i).check f)) := by
  obtain ⟨maps, hmaps⟩ := check_yields T htable hvalid
  have hone : (fun i => [f].mapM (T.ctx i).check) =
      fun i => (T.ctx i).check f >>= fun m => pure [m] := by
    funext i
    rw [List.mapM_cons]
    rfl
  have hlift : gather (Crew.run c.medium (partitions.map (c.worker [f]))) =
      gather (Crew.run c.medium (List.ofFn fun i => (T.ctx i).check f)) >>= fun _ =>
        .ok (List.ofFn fun i => [maps i]) := by
    rw [map_worker T hmake hall, hone, gather_bind hmaps (.done fun i => [maps i]) hattempted]
    exact bind_congr fun _ => (congrArg gather (Crew.run_done _)).trans (gather_ok _)
  rw [verify, verifyAll_eq_gather hcount hall hhub (by simpa using hvalid), hlift]
  obtain hok | ⟨cause, hcause⟩ := gather_run hmaps hattempted
  · rw [hok]
    exact congrArg (fun results => Except.ok (results.headD [])) (columns_cons 0 maps fun _ => [])
  · rw [hcause]
    rfl

/-- A batch checks its first formula, and then the others. -/
theorem verifyAll_cons {f : Formula} {formulas : List Formula}
    (hvalid : ∀ g ∈ f :: formulas, g.validate c.model [] = .ok ()) :
    c.verifyAll (f :: formulas) = do
      let maps ← c.verify f
      let rest ← c.verifyAll formulas
      return maps :: rest := by
  have hf := hvalid f List.mem_cons_self
  have hformulas : ∀ g ∈ formulas, g.validate c.model [] = .ok () := fun g hg =>
    hvalid g (List.mem_cons_of_mem f hg)
  obtain ⟨maps, hmaps⟩ := check_yields T htable hf
  obtain ⟨rest, hrest⟩ := mapM_check_yields T htable hformulas
  have hothers : Crew.Yields (T.Round .tell) (fun i => do
      let others ← formulas.mapM (T.ctx i).check
      return maps i :: others) fun i => maps i :: rest i := hrest.bind (.done _)
  rw [verifyAll_eq_gather hcount hall hhub hvalid, verifyAll_eq_gather hcount hall hhub hformulas,
    verify_eq_gather T htable hmake hcount hall hattempted hhub hf, map_worker T hmake hall,
    map_worker T hmake hall]
  simp only [List.mapM_cons]
  rw [gather_bind hmaps hothers hattempted, gather_bind (f := fun i others => pure (maps i :: others)) hrest
    (.done fun i => maps i :: rest i) hattempted]
  obtain hok | ⟨cause, hcause⟩ := gather_run hmaps hattempted
  · obtain hok' | ⟨cause, hcause⟩ := gather_run hrest hattempted
    · rw [hok, hok']
      simp only [ok_bind]
      rw [show Crew.run c.medium (List.ofFn fun i => pure (maps i :: rest i)) = _ from Crew.run_done _,
        gather_ok, ok_bind, List.length_cons, columns_cons]
      rfl
    · rw [hok, hcause]
      rfl
  · rw [hcause]
    rfl

/-- A batch gives what its formulas give one after the other. -/
theorem verifyAll_eq_mapM {formulas : List Formula}
    (hvalid : ∀ f ∈ formulas, f.validate c.model [] = .ok ()) :
    c.verifyAll formulas = formulas.mapM c.verify := by
  induction formulas with
  | nil =>
    rw [verifyAll_eq_gather hcount hall hhub hvalid, map_worker T hmake hall]
    simp only [List.mapM_nil]
    rw [show Crew.run c.medium (List.ofFn fun _ => pure []) = _ from Crew.run_done _, gather_ok, ok_bind]
    rfl
  | cons f formulas ih =>
    rw [verifyAll_cons T htable hmake hcount hall hattempted hhub hvalid, List.mapM_cons,
      ih fun g hg => hvalid g (List.mem_cons_of_mem f hg)]

end Batches

/-- A batch that there is no room to connect the workers for fails as its first formula. -/
theorem verifyAll_eq_mapM_of_crowded {c : Checker C} {partitions : List Partition}
    (hcount : 0 < c.config.partitions)
    (hall : Partition.all c.config.strategy c.config.partitions c.model.stateCount = .ok partitions)
    {cause : Misuse} (hnew : Channel.new c.medium = .error cause) {formulas : List Formula}
    (hsome : formulas ≠ []) (hvalid : ∀ f ∈ formulas, f.validate c.model [] = .ok ()) :
    c.verifyAll formulas = formulas.mapM c.verify := by
  obtain ⟨f, rest, rfl⟩ := List.exists_cons_of_ne_nil hsome
  rw [verifyAll_of_crowded hcount hall hnew hvalid, List.mapM_cons,
    verify_of_crowded hcount hall hnew (hvalid f List.mem_cons_self)]
  rfl

/-- Every formula has its own maps, one for each worker, and a check of any number of formulas gives the
maps of each of them in its place, if there is room for a place for each pair of workers. -/
structure Batches (c : Checker C) (R : Reading c.algebra) (partitions : List Partition)
    (maps : Formula → Fin c.config.partitions → StateMap C) : Prop where
  /-- Together and one by one the formulas give the same results, or fail in the same way. The workers are
  connected also when there is nothing to check. -/
  verifyAll_eq : ∀ {formulas : List Formula}, (∀ f ∈ formulas, f.validate c.model [] = .ok ()) →
    (formulas = [] → c.config.partitions < 0x20000000) → c.verifyAll formulas = formulas.mapM c.verify
  verifyAll_of_fit : c.config.partitions < 0x20000000 → ∀ {formulas : List Formula},
    (∀ f ∈ formulas, f.validate c.model [] = .ok ()) → (c.Frames → c.FramesFit R partitions) →
      c.verifyAll formulas = .ok (formulas.map fun f => List.ofFn (maps f))
  /-- A batch fails only for a frame that cannot be written or read. -/
  verifyAll_cases : c.config.partitions < 0x20000000 → ∀ {formulas : List Formula},
    (∀ f ∈ formulas, f.validate c.model [] = .ok ()) →
      c.verifyAll formulas = .ok (formulas.map fun f => List.ofFn (maps f)) ∨ c.Frames ∧
        ∃ cause, c.verifyAll formulas = .error (.error (.channel cause)) ∧ cause.OfWire
  verify_gives : c.config.partitions < 0x20000000 → ∀ {f : Formula}, f.validate c.model [] = .ok () →
    c.Gives R partitions f (maps f)

/-- The maps of formulas do not depend on the batch they are checked in. -/
theorem exists_batches (c : Checker C) {R : Reading c.algebra} {S : Nat → Kripke}
    (hserves : c.model.Serves R S) (htable : c.model.stateCount ≤ Capacity.tableLimit)
    (hcodes : c.algebra.Codes R.InDomain ∨ c.algebra.Garbles R.InDomain)
    (hcount : 0 < c.config.partitions) {partitions : List Partition}
    (hall : Partition.all c.config.strategy c.config.partitions c.model.stateCount = .ok partitions) :
    ∃ maps, c.Batches R partitions maps := by
  obtain ⟨T, howner, hmake, _⟩ := c.exists_team hserves hcount hall
  have heach (f : Formula) : ∃ maps : Fin c.config.partitions → StateMap C,
      c.config.partitions < 0x20000000 → f.validate c.model [] = .ok () → c.Gives R partitions f maps := by
    by_cases hvalid : f.validate c.model [] = .ok ()
    · obtain ⟨_, results, hruns⟩ := exists_runs c hserves htable hcodes hcount hall hvalid
      exact ⟨fun i => (results i).1, fun hhub _ => hruns.gives hcount hhub hall hvalid⟩
    · exact ⟨fun _ => .empty 0, fun _ h => absurd h hvalid⟩
  choose maps hmaps using heach
  have hattempted : Crew.Attempted (T.Round .tell) c.medium := attempted howner hcodes
  have hbatch (hhub : c.config.partitions < 0x20000000) {formulas : List Formula}
      (hvalid : ∀ f ∈ formulas, f.validate c.model [] = .ok ()) :
      c.verifyAll formulas = formulas.mapM c.verify :=
    verifyAll_eq_mapM T htable hmake hcount hall hattempted hhub hvalid
  refine ⟨maps, ?_, ?_, ?_, fun hhub => hmaps _ hhub⟩
  · intro formulas hvalid hroom
    obtain ⟨hhub, _⟩ | ⟨hnone, cause, hnew⟩ := c.new_medium
    · exact hbatch hhub hvalid
    · exact verifyAll_eq_mapM_of_crowded hcount hall hnew (fun hnil => hnone (hroom hnil)) hvalid
  · intro hhub formulas hvalid hfit
    rw [hbatch hhub hvalid]
    exact mapM_eq_ok fun f hf => (hmaps f hhub (hvalid f hf)).verify_of_fit hfit
  · intro hhub formulas hvalid
    rw [hbatch hhub hvalid]
    have hcases := mapM_eq_ok_or_error (f := c.verify) (g := fun f => List.ofFn (maps f)) (l := formulas)
      (P := fun failure => c.Frames ∧ ∃ cause, failure = .error (.channel cause) ∧ cause.OfWire)
      fun f hf => (hmaps f hhub (hvalid f hf)).verify_cases.imp_right fun ⟨hframes, cause, hcause, hwire⟩ =>
        ⟨_, hcause, hframes, cause, rfl, hwire⟩
    refine hcases.imp_right ?_
    rintro ⟨_, hfailed, hframes, cause, rfl, hwire⟩
    exact ⟨hframes, cause, hfailed, hwire⟩

variable {domain : Domain} {b : ExplicitModel.Builder domain.Value} {M : ExplicitModel domain.Value}
  {config : Config} {partitions : List Partition}

end Checker

end ColoredCtl

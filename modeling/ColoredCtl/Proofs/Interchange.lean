import ColoredCtl.Proofs.Until

namespace ColoredCtl

open Color

namespace Checker

variable {C : Type}

/-- The worker of a partition that computes a formula, with the names standing for states. -/
def evaluator (c : Checker C) (f : Formula) (env : Env) (p : Partition) : Worker C (StateMap C) := do
  let ctx ← Context.make c.algebra c.model p
  (ctx.eval f env).run' {}

/-- The colors that the worker of a state computes there for a formula, with the names standing for states. -/
def valueAt (c : Checker C) (R : Reading c.algebra) (partitions : List Partition) (f : Formula) (env : Env)
    (s : Nat) : Finset Nat :=
  match (Crew.run c.unframed.medium (partitions.map (c.evaluator f env)))[
    c.config.owner c.model.stateCount s]? with
  | some (.ok m) => m.colorsAt R s
  | _ => ∅

/-- Two formulas are refused for the same reasons and give the same results, if there is room for tables of
all states. -/
structure Interchangeable (c : Checker C) (R : Reading c.algebra) (partitions : List Partition)
    (f g : Formula) : Prop where
  validate_eq : ∀ scope, f.validate c.model scope = g.validate c.model scope
  verify_of_fit : c.model.stateCount ≤ Capacity.tableLimit → (c.Frames → c.FramesFit R partitions) →
    c.verify f = c.verify g
  /-- A check differs from the other only if one of them fails for a frame that cannot be written or read. -/
  verify_cases : c.model.stateCount ≤ Capacity.tableLimit →
    c.verify f = c.verify g ∨ c.Frames ∧ ∃ cause : ChannelError, cause.OfWire ∧
      (c.verify f = .error (.error (.channel cause)) ∨ c.verify g = .error (.error (.channel cause)))
  valueAt_eq : ∀ {scope env}, f.validate c.model scope = .ok () → env.Binds c.model.stateCount scope →
    ∀ s < c.model.stateCount, c.valueAt R partitions f env s = c.valueAt R partitions g env s

/-- A formula that is refused is not checked. -/
theorem verify_of_refused (c : Checker C) {f : Formula} {cause : CheckError}
    (h : f.validate c.model [] = .error cause) : c.verify f = .error (.error cause) := by
  have hrefused : ([f].forM fun f => f.validate c.model []) = .error cause := by
    rw [List.forM_eq_forM, List.forM_cons, h]
    rfl
  apply verify_of_failed
  rw [verifyAll, hrefused]
  rfl

section

variable (c : Checker C) {R : Reading c.algebra} {S : Nat → Kripke} (hserves : c.model.Serves R S)
  (hcodes : c.algebra.Codes R.InDomain ∨ c.algebra.Garbles R.InDomain) (hcount : 0 < c.config.partitions)
  {partitions : List Partition}
  (hall : Partition.all c.config.strategy c.config.partitions c.model.stateCount = .ok partitions)
  {f g : Formula} {env : Env} {scope : List String}

include hserves hcodes hcount hall

/-- The workers compute the maps of the states that they own where the formula holds. -/
theorem evaluator_spec (hvalid : f.validate c.model scope = .ok ()) (henv : env.Binds c.model.stateCount scope) :
    ∃ maps, c.Finishes R partitions (c.evaluator f env) maps ∧
      ∀ i : Fin c.config.partitions, (maps i).Shows R c.model.stateCount
        (fun s => s < c.model.stateCount ∧ c.config.owner c.model.stateCount s = i)
        fun s color => (s < c.model.stateCount ∧ c.config.owner c.model.stateCount s = i) ∧
          color ∈ R.palette ∧ f.Holds (S color) env s := by
  obtain ⟨T, howner, hmake, _⟩ := c.exists_team hserves hcount hall
  have hends : T.Ends (fun i => c.evaluator f env
      (Partition.nth c.config.strategy c.config.partitions c.model.stateCount i))
      (T.Shows (f.extent S env)) := by
    simp only [evaluator, hmake]
    exact T.eval_spec f hvalid henv
  obtain ⟨maps, hyields, hshows⟩ := hends
  refine ⟨maps, finishes_of_yields howner hcodes hcount hall hyields, fun i => ?_⟩
  refine (hshows i).congr ?_ ?_
  · intro s hs
    rwa [T.owns_iff, howner] at hs
  · intro s color
    rw [T.owns_iff, howner]
    rfl

/-- The worker of a state comes to the colors for which the formula holds there. -/
theorem mem_valueAt_iff (hvalid : f.validate c.model scope = .ok ())
    (henv : env.Binds c.model.stateCount scope) {s color : Nat} (hs : s < c.model.stateCount) :
    color ∈ c.valueAt R partitions f env s ↔ color ∈ R.palette ∧ f.Holds (S color) env s := by
  obtain ⟨maps, hfinishes, hshows⟩ := c.evaluator_spec hserves hcodes hcount hall hvalid henv
  have howner : c.config.owner c.model.stateCount s < c.config.partitions :=
    ((Partition.all_eq_ok hall).2 0 hcount).owner_lt hs
  have hvalue : c.valueAt R partitions f env s =
      (maps ⟨c.config.owner c.model.stateCount s, howner⟩).colorsAt R s := by
    rw [valueAt, hfinishes.run_unframed, List.getElem?_ofFn, dif_pos howner]
  rw [hvalue, (hshows _).mem_iff]
  exact and_iff_right ⟨hs, rfl⟩

/-- The checks of formulas that hold at the same states give the same maps. -/
theorem gives_of_holds_iff (hhub : c.config.partitions < 0x20000000) (hfaithful : R.Faithful)
    (hholds : ∀ color env, ∀ s < c.model.stateCount, f.Holds (S color) env s ↔ g.Holds (S color) env s)
    (htable : c.model.stateCount ≤ Capacity.tableLimit) (hf : f.validate c.model [] = .ok ())
    (hg : g.validate c.model [] = .ok ()) :
    ∃ maps, c.Gives R partitions f maps ∧ c.Gives R partitions g maps := by
  obtain ⟨T, results, hruns⟩ := exists_runs c hserves htable hcodes hcount hall hf
  obtain ⟨T', results', hruns'⟩ := exists_runs c hserves htable hcodes hcount hall hg
  have hsame : (fun i => (results i).1) = fun i => (results' i).1 := by
    funext i
    refine (hruns.tabulates i).unique hfaithful ((hruns'.tabulates i).congr fun s color => ?_)
    exact and_congr_right fun howns => and_congr_right fun _ => (hholds color [] s howns.1).symm
  refine ⟨_, hruns.gives hcount hhub hall hf, ?_⟩
  rw [hsame]
  exact hruns'.gives hcount hhub hall hg

/-- Formulas that are refused for the same reasons, and that hold at the same states, give the same
results. -/
theorem interchangeable_of_holds_iff (hfaithful : R.Faithful)
    (hvalidate : ∀ scope, f.validate c.model scope = g.validate c.model scope)
    (hholds : ∀ color env, ∀ s < c.model.stateCount, f.Holds (S color) env s ↔ g.Holds (S color) env s) :
    c.Interchangeable R partitions f g := by
  have hvalue {scope : List String} {env : Env} (hf : f.validate c.model scope = .ok ())
      (henv : env.Binds c.model.stateCount scope) (s : Nat) (hs : s < c.model.stateCount) :
      c.valueAt R partitions f env s = c.valueAt R partitions g env s := by
    ext color
    rw [c.mem_valueAt_iff hserves hcodes hcount hall hf henv hs,
      c.mem_valueAt_iff hserves hcodes hcount hall (hvalidate scope ▸ hf) henv hs, hholds color env s hs]
  cases hf : f.validate c.model [] with
  | error cause =>
    have hverify : c.verify f = c.verify g := by
      rw [c.verify_of_refused hf, c.verify_of_refused (hvalidate [] ▸ hf)]
    exact ⟨hvalidate, fun _ _ => hverify, fun _ => .inl hverify, hvalue⟩
  | ok _ =>
    have hg : g.validate c.model [] = .ok () := hvalidate [] ▸ hf
    obtain ⟨hhub, _⟩ | ⟨_, cause, hnew⟩ := c.new_medium
    · have hgives (htable : c.model.stateCount ≤ Capacity.tableLimit) :=
        c.gives_of_holds_iff hserves hcodes hcount hall hhub hfaithful hholds htable hf hg
      refine ⟨hvalidate, fun htable hfit => ?_, fun htable => ?_, hvalue⟩
      · obtain ⟨maps, hgivesF, hgivesG⟩ := hgives htable
        rw [hgivesF.verify_of_fit hfit, hgivesG.verify_of_fit hfit]
      · obtain ⟨maps, hgivesF, hgivesG⟩ := hgives htable
        obtain hverify | ⟨hframes, cause, hfailed, hwire⟩ := hgivesF.verify_cases
        · obtain hverify' | ⟨hframes, cause, hfailed, hwire⟩ := hgivesG.verify_cases
          · exact .inl (hverify.trans hverify'.symm)
          · exact .inr ⟨hframes, cause, hwire, .inr hfailed⟩
        · exact .inr ⟨hframes, cause, hwire, .inl hfailed⟩
    · have hverify : c.verify f = c.verify g := by
        rw [verify_of_crowded hcount hall hnew hf, verify_of_crowded hcount hall hnew hg]
      exact ⟨hvalidate, fun _ _ => hverify, fun _ => .inl hverify, hvalue⟩

end

end Checker

end ColoredCtl

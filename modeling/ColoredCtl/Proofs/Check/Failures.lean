import ColoredCtl.Check.Checker
import ColoredCtl.Proofs.Formula.Places

/-!
A worker does not fail on account of a valid formula.

Its operators fail when an operation is misused, when a map refuses a value or when a round is aborted. Only
two computations can find a name without a state or an atom that the model does not know: that of an atom,
and that of a name. Where the names of a formula are bound and the model knows its atoms, neither of them
does. This is said of the whole tree of a worker, so that it holds whatever the worker receives.
-/

namespace ColoredCtl

open Color

variable {C α β σ : Type}

/-- An error that tells something about a formula: a name that is not bound, an atom that is not known or that
the model cannot evaluate. -/
def CheckError.OfFormula : CheckError → Prop
  | .unboundVariable _ | .unknownAtom _ _ | .model _ => True
  | _ => False

/-- The failure tells nothing about a formula. -/
def Failure.Spares (failure : Failure CheckError) : Prop := ∀ cause, failure = .error cause → ¬cause.OfFormula

theorem Failure.spares_misuse (cause : Misuse) : (Failure.misuse cause).Spares := by
  intro _ h
  cases h

theorem Failure.spares_error {cause : CheckError} (h : ¬cause.OfFormula) : (Failure.error cause).Spares := by
  intro _ heq
  cases heq
  exact h

theorem Failure.spares_map {ε : Type} {f : ε → CheckError} (hf : ∀ cause, ¬(f cause).OfFormula)
    (failure : Failure ε) : (failure.map f).Spares := by
  cases failure with
  | misuse cause => exact spares_misuse cause
  | error cause => exact spares_error (hf cause)

namespace Attempt

/-- The computation does not fail on account of a formula. -/
abbrev Spares (x : Attempt α) : Prop := FailsOnly Failure.Spares x

theorem spares_lift (x : Except Misuse α) : Spares (liftM x : Attempt α) := .lift Failure.spares_misuse x

theorem spares_ofMap (x : Except (Failure MapError) α) : Spares (ofMap x) :=
  (FailsOnly.of_any x).mapError fun failure _ => Failure.spares_map (f := .map) (fun _ h => h) failure

end Attempt

namespace Worker

/-- The worker does not fail on account of a formula, whatever it receives. -/
def Spares : Worker C α → Prop
  | .done _ => True
  | .fail failure => failure.Spares
  | .meet _ resume => ∀ incoming, (resume incoming).Spares

theorem Spares.bind {w : Worker C α} {f : α → Worker C β} (hw : w.Spares) (hf : ∀ a, (f a).Spares) :
    (w >>= f).Spares := by
  induction w with
  | done a => exact hf a
  | fail failure => exact hw
  | meet out resume ih => exact fun incoming => ih incoming (hw incoming)

theorem spares_exchange (out : Outgoing C) : (exchange out).Spares := fun _ => trivial

theorem spares_attempt {x : Attempt α} (hx : x.Spares) : (liftM x : Worker C α).Spares := by
  cases x with
  | error failure => exact hx failure rfl
  | ok a => trivial

theorem spares_compute (x : Except Misuse α) : (liftM x : Worker C α).Spares := by
  cases x with
  | error cause => exact Failure.spares_misuse cause
  | ok a => trivial

theorem spares_grow (x : Except (Failure MapError) α) : (liftM (Attempt.ofMap x) : Worker C α).Spares :=
  spares_attempt (Attempt.spares_ofMap x)

theorem spares_foldlM {f : σ → α → Worker C σ} (hf : ∀ s a, (f s a).Spares) (l : List α) (s : σ) :
    (l.foldlM f s).Spares := by
  induction l generalizing s with
  | nil => trivial
  | cons a l ih => exact (hf s a).bind ih

theorem spares_filterMapM {f : α → Worker C (Option β)} (hf : ∀ a, (f a).Spares) (l : List α) :
    (l.filterMapM f).Spares := by
  induction l with
  | nil => trivial
  | cons a l ih =>
    rw [List.filterMapM_cons]
    refine (hf a).bind fun found => ?_
    cases found with
    | none => exact ih
    | some b => exact ih.bind fun _ => trivial

theorem spares_mapM {f : α → Worker C β} {l : List α} (hf : ∀ a ∈ l, (f a).Spares) : (l.mapM f).Spares := by
  induction l with
  | nil => trivial
  | cons a l ih =>
    rw [List.mapM_cons]
    refine (hf a List.mem_cons_self).bind fun b => ?_
    exact (ih fun x hx => hf x (List.mem_cons_of_mem _ hx)).bind fun _ => trivial

end Worker

/-- Going through a map fails where the map has no value, or as the step does. -/
theorem StateMap.spares_foldEntries {A : Algebra C} {visit : σ → Nat × C → Attempt σ}
    (h : ∀ s entry, (visit s entry).Spares) (m : StateMap C) (s : σ) :
    Attempt.Spares (m.foldEntries A visit s) := by
  have hview : ∀ (m : StateMap C) (states : List Nat) (s : σ), Attempt.Spares (foldView A m visit states s) := by
    intro m states
    induction states with
    | nil => exact FailsOnly.of_ok
    | cons state states ih =>
      intro s
      rw [foldView]
      refine (Attempt.spares_lift _).bind fun item => ?_
      cases item with
      | none => exact ih s
      | some entry => exact (h s entry).bind ih
  cases m with
  | dense start values stateCount =>
    exact FailsOnly.foldlM (fun s slot => (Attempt.spares_lift _).bind (h s)) _ s
  | sparse values stateCount => exact FailsOnly.foldlM h _ s
  | span range value stateCount =>
    rw [foldEntries, foldSpan_eq]
    exact FailsOnly.foldlM h _ s
  | single state value stateCount => exact h s (state, value)
  | empty stateCount => exact FailsOnly.of_ok s
  | constant domain value => exact FailsOnly.foldlM (fun s state => h s (state, value)) _ s
  | interView left right domain | unionView left right domain | diffView left right domain =>
    exact hview _ _ s

/-- The rule does not fail on account of a formula. -/
structure Rule.Spares (rule : Rule C σ) : Prop where
  propagate : ∀ s state value, (rule.propagate s state value).Spares
  receive : ∀ s state value, (rule.receive s state value).Spares

section Operators

open Worker

variable (ctx : Context C)

theorem Context.spares_broadcast (packet : Packet C) : (ctx.broadcast packet).Spares :=
  (spares_exchange _).bind fun _ => trivial

namespace Next

theorem spares_someStep (course : Course) (phi : StateMap C) : (someStep ctx course phi).Spares := by
  refine (spares_compute _).bind fun contributions => (spares_compute _).bind fun start => ?_
  refine (spares_grow _).bind fun scattered => (spares_exchange _).bind fun received => ?_
  exact (spares_grow _).bind fun own => trivial

theorem spares_everyStep (course : Course) (phi : StateMap C) : (everyStep ctx course phi).Spares := by
  refine (spares_grow _).bind fun staging => (spares_exchange _).bind fun received => ?_
  refine (spares_someStep ctx course phi).bind fun candidates => (spares_compute _).bind fun states => ?_
  refine .bind (spares_filterMapM (fun state => ?_) states) fun decided => ?_
  · refine (spares_compute _).bind fun value => ?_
    cases value with
    | none => trivial
    | some value => exact (spares_compute _).bind fun left => trivial
  · exact (spares_compute _).bind fun result => (spares_grow _).bind fun own => trivial

end Next

namespace FirstOrder

variable {eval : Nat → Worker C (StateMap C)}

theorem spares_bind (h : ∀ state, (eval state).Spares) : (bind ctx eval).Spares := by
  refine .bind (spares_filterMapM (fun state => ?_) _) fun entries => trivial
  exact (h state).bind fun m => (spares_compute _).bind fun value => trivial

theorem spares_jump (state : Nat) (m : StateMap C) : (jump ctx state m).Spares := by
  refine (spares_compute _).bind fun value => (ctx.spares_broadcast _).bind fun all => ?_
  split <;> trivial

theorem spares_substitutions (bound : StateMap C) : (substitutions ctx bound).Spares :=
  (spares_compute _).bind fun _ => (ctx.spares_broadcast _).bind fun _ => trivial

theorem spares_forAll (bound : StateMap C) (h : ∀ state, (eval state).Spares) :
    (forAll ctx bound eval).Spares := by
  refine (spares_substitutions ctx bound).bind fun values => ?_
  refine .bind (spares_foldlM (fun colors entry => ?_) values _) fun colors => trivial
  obtain ⟨state, legal⟩ := entry
  exact (h state).bind fun m => spares_compute _

theorem spares_collect (legal : C) (m : StateMap C) (acc : Accumulator C) :
    (collect ctx legal m acc).Spares := by
  refine StateMap.spares_foldEntries (fun acc entry => ?_) m acc
  obtain ⟨state, holds⟩ := entry
  exact (Attempt.spares_lift _).bind fun colors => (Attempt.spares_ofMap _).bind fun grown => FailsOnly.of_ok _

theorem spares_forSome (bound : StateMap C) (h : ∀ state, (eval state).Spares) :
    (forSome ctx bound eval).Spares := by
  refine (spares_substitutions ctx bound).bind fun values => (spares_compute _).bind fun start => ?_
  refine .bind (spares_foldlM (fun acc entry => ?_) values _) fun acc => trivial
  obtain ⟨state, legal⟩ := entry
  exact (h state).bind fun m => spares_attempt (spares_collect ctx legal m acc)

end FirstOrder

namespace Search

open Attempt

theorem spares_raise (s : Search C σ) (state : Nat) (value : C) : (s.raise ctx state value).Spares := by
  refine (spares_ofMap _).bind fun grown => ?_
  obtain ⟨grew, result⟩ := grown
  cases grew with
  | true => exact (spares_lift _).bind fun work => .of_ok _
  | false => exact .of_ok _

theorem spares_stage (s : Search C σ) (owner state : Nat) (value : C) :
    (s.stage ctx owner state value).Spares :=
  (spares_ofMap _).bind fun _ => .of_ok _

theorem spares_feed {take : Search C σ → Nat → C → Attempt (Search C σ)}
    (h : ∀ s state value, (take s state value).Spares) (s : Search C σ) (packet : Packet C) :
    (s.feed take packet).Spares :=
  FailsOnly.foldlM (fun s (state, value) => h s state value) packet s

variable {rule : Rule C σ}

theorem spares_drain (h : rule.Spares) (fuel : Nat) (s : Search C σ) : (drain rule fuel s).Spares := by
  induction fuel generalizing s with
  | zero =>
    obtain ⟨result, ⟨stack, queued⟩, staging, memory⟩ := s
    cases stack with
    | nil => exact .of_ok _
    | cons state stack => exact .of_error (Failure.spares_error id)
  | succ fuel ih =>
    obtain ⟨result, ⟨stack, queued⟩, staging, memory⟩ := s
    cases stack with
    | nil => exact .of_ok _
    | cons state stack =>
      unfold drain
      simp only [WorkSet.pop]
      split
      · exact ih _
      · exact (h.propagate _ _ _).bind ih

theorem spares_saturate (h : rule.Spares) (fuel : Nat) (s : Search C σ) : (saturate ctx rule fuel s).Spares := by
  induction fuel generalizing s with
  | zero => exact Failure.spares_error id
  | succ fuel ih =>
    refine (spares_attempt (spares_drain h _ s)).bind fun s => (spares_exchange _).bind fun received => ?_
    cases received with
    | none => trivial
    | some received => exact (spares_attempt (spares_feed h.receive _ received)).bind ih

theorem spares_fixedPoint (h : rule.Spares) (memory : σ) (seeds : Packet C) :
    (fixedPoint ctx rule memory seeds).Spares := by
  refine (spares_compute _).bind fun start => ?_
  refine (spares_attempt (spares_feed (spares_raise ctx) start seeds)).bind fun s => ?_
  exact spares_saturate ctx h _ s

end Search

namespace Until

open Attempt

variable (course : Course) (path : StateMap C)

theorem spares_offer (s : Search C σ) (state : Nat) (value : C) : (offer ctx path s state value).Spares := by
  refine (spares_lift _).bind fun allowed => ?_
  cases allowed with
  | none => exact .of_ok s
  | some allowed => exact (spares_lift _).bind fun value => Search.spares_raise ctx s state value

theorem spares_passOn (value : C) (s : Search C Unit) (t : Transition C) :
    (passOn ctx path value s t).Spares := by
  refine (spares_lift _).bind fun pushed => (spares_lift _).bind fun more => ?_
  cases more with
  | false => exact .of_ok s
  | true =>
    rw [if_pos rfl]
    dsimp only
    split
    · exact spares_offer ctx path s t.target pushed
    · exact Search.spares_stage ctx s _ t.target pushed

theorem spares_someRule : (someRule ctx course path).Spares where
  propagate s _ value := FailsOnly.foldlM (spares_passOn ctx path value) _ s
  receive := spares_offer ctx path

theorem spares_notifyState (target : Nat) (value : C) (s : Search C (Cover C)) (state : Nat) :
    (notifyState ctx target value s state).Spares := by
  unfold notifyState
  cases s.memory.coverage[state]? with
  | none => exact .of_ok s
  | some coverage =>
    refine (spares_lift _).bind fun shrunk => ?_
    split
    · exact (spares_lift _).bind fun remaining => (spares_lift _).bind fun covered => Search.spares_raise ctx _ _ _
    · exact .of_ok s

theorem spares_notify (s : Search C (Cover C)) (target : Nat) (value : C) : (notify ctx s target value).Spares :=
  FailsOnly.foldlM (spares_notifyState ctx target value) _ s

theorem spares_everyRule : (everyRule ctx course).Spares where
  propagate s state value := by
    refine .bind (FailsOnly.foldlM (fun s t => ?_) _ s) fun s => spares_notify ctx s state value
    dsimp only
    split
    · exact .of_ok s
    · exact Search.spares_stage ctx s _ state value
  receive := spares_notify ctx

theorem spares_somePath (weak : Bool) (reach : StateMap C) : (somePath ctx weak course path reach).Spares :=
  (spares_compute _).bind fun _ => Search.spares_fixedPoint ctx (spares_someRule ctx course path) _ _

theorem spares_everyPath (weak : Bool) (reach : StateMap C) : (everyPath ctx weak course path reach).Spares :=
  (spares_compute _).bind fun _ => (spares_compute _).bind fun _ =>
    Search.spares_fixedPoint ctx (spares_everyRule ctx course) _ _

end Until

end Operators

/-- The computation does not fail on account of a formula, whatever was kept before. -/
def Shared.Spares (m : Shared C α) : Prop := ∀ memo, (m.run memo).Spares

namespace Shared

theorem spares_pure (a : α) : Spares (pure a : Shared C α) := fun _ => trivial

theorem Spares.bind {m : Shared C α} {f : α → Shared C β} (hm : m.Spares) (hf : ∀ a, (f a).Spares) :
    (m >>= f).Spares := by
  intro memo
  rw [StateT.run_bind]
  exact (hm memo).bind fun r => hf r.1 r.2

theorem spares_lift {w : Worker C α} (hw : w.Spares) : Spares (liftM w : Shared C α) :=
  fun _ => hw.bind fun _ => trivial

theorem Spares.run' {m : Shared C α} (hm : m.Spares) (memo : Memo C) : (m.run' memo).Spares :=
  (hm memo).bind fun _ => trivial

theorem Spares.share {m : Shared C (StateMap C)} (hm : m.Spares) (f : Formula) : (share f m).Spares := by
  intro memo
  simp only [ColoredCtl.share, StateT.run_bind, StateT.run_get, pure_bind]
  cases memo.find? f with
  | some m => trivial
  | none =>
    refine Spares.bind hm (fun m memo => ?_) memo
    trivial

end Shared

/-- A misuse, and no error that the operation is specified to return. -/
def Failure.IsMisuse {ε : Type} : Failure ε → Prop
  | .misuse _ => True
  | .error _ => False

namespace ExplicitModel

variable {A : Algebra C} {M : ExplicitModel C}

theorem evalFloat_failsOnly {name : String} (h : name ∈ M.definitions.map (·.1)) (comparison : Comparison)
    (threshold : Binary64) : FailsOnly Failure.IsMisuse (M.evalFloat A name comparison threshold) := by
  obtain ⟨values, hvalues⟩ := Option.isSome_iff_exists.1 (lookup_definitions_isSome.2 h)
  simp only [evalFloat, hvalues]
  exact (FailsOnly.lift (fun _ => trivial) _).bind fun _ => .of_ok _

theorem evalTransition_failsOnly {name : String} (h : ∀ declared ∈ M.dimensions, name ∈ declared)
    (rows : Array (List (Transition C))) (facet : Facet) :
    FailsOnly Failure.IsMisuse (M.evalTransition A rows name facet) := by
  unfold evalTransition
  rw [checkName_eq, if_pos h, lift_ok, ok_bind]
  refine .bind (.filterMapM (fun row => ?_) _) fun entries => .of_ok _
  obtain ⟨ts, state⟩ := row
  refine (FailsOnly.lift (fun _ => trivial) _).bind fun value => ?_
  cases value with
  | none => exact .of_ok none
  | some value =>
    refine (FailsOnly.lift (fun _ => trivial) _).bind fun some => ?_
    split
    · exact .of_ok _
    · exact .of_ok none

/-- An atom that the model knows is evaluated without an error. -/
theorem evalAtom_failsOnly {a : Atom} (h : M.Knows a) :
    FailsOnly Failure.IsMisuse ((M.toModel A).evalAtom a) := by
  cases a with
  | float name comparison threshold => exact evalFloat_failsOnly h comparison threshold
  | transition name flow facet => cases flow <;> exact evalTransition_failsOnly h _ facet

end ExplicitModel

namespace Context

variable {ctx : Context C} {A : Algebra C} {M : ExplicitModel C} {env : Env}

theorem spares_evalNot {m : Shared C (StateMap C)} (hm : m.Spares) (f : Formula) :
    (ctx.evalNot f m).Spares :=
  .share (hm.bind fun _ => Shared.spares_lift (Worker.spares_compute _)) _

theorem spares_evalAnd {m k : Shared C (StateMap C)} (hm : m.Spares) (hk : k.Spares) (f g : Formula) :
    (evalAnd f g m k).Spares :=
  .share (hm.bind fun _ => hk.bind fun _ => Shared.spares_lift (Worker.spares_compute _)) _

theorem spares_evalOr {m k : Shared C (StateMap C)} (hm : m.Spares) (hk : k.Spares) (f g : Formula) :
    (evalOr f g m k).Spares :=
  .share (hm.bind fun _ => hk.bind fun _ => Shared.spares_lift (Worker.spares_compute _)) _

theorem spares_evalAtom (hmodel : ctx.model = M.toModel A) {a : Atom} (h : M.Knows a) :
    (ctx.evalAtom a).Spares := by
  refine .bind (Worker.spares_attempt ?_) fun m => Worker.spares_compute _
  rw [hmodel]
  refine (ExplicitModel.evalAtom_failsOnly h).mapError fun failure hmisuse => ?_
  cases failure with
  | misuse cause => exact Failure.spares_misuse cause
  | error cause => exact hmisuse.elim

/-- A name that is bound stands for a state. -/
theorem spares_resolve {name : String} (h : name ∈ env.map (·.1)) : (resolve env name).Spares := by
  obtain ⟨state, hstate⟩ : ∃ state, env.lookup name = some state := by
    rw [← Option.isSome_iff_exists]
    simpa using h
  rw [resolve, hstate]
  exact .of_ok state

theorem spares_evalReference {name : String} (h : name ∈ env.map (·.1)) :
    (ctx.evalReference env name).Spares := by
  refine (Worker.spares_attempt (spares_resolve h)).bind fun state => ?_
  split <;> trivial

/-- A worker does not fail on account of a formula whose names are bound and whose atoms are known. -/
theorem spares_eval (hmodel : ctx.model = M.toModel A) {f : Formula}
    (h : f.validate (M.toModel A) (env.map (·.1)) = .ok ()) : (ctx.eval f env).Spares := by
  induction f generalizing env with
  | top | bottom => exact .share (Shared.spares_pure _) _
  | atom a =>
    have hatom := ExplicitModel.checkAtom_eq_ok_iff.1 (mapError_eq_ok_iff.1 h)
    exact .share (Shared.spares_lift (spares_evalAtom hmodel hatom)) _
  | reference name => exact .share (Shared.spares_lift (spares_evalReference (checkBound_eq_ok_iff.1 h))) _
  | not f ih => exact spares_evalNot (ih h) f
  | and f g ihf ihg =>
    obtain ⟨_, hf, hg⟩ := bind_eq_ok_iff.1 h
    exact spares_evalAnd (ihf hf) (ihg hg) f g
  | or f g ihf ihg =>
    obtain ⟨_, hf, hg⟩ := bind_eq_ok_iff.1 h
    exact spares_evalOr (ihf hf) (ihg hg) f g
  | implies f g ihf ihg =>
    obtain ⟨_, hf, hg⟩ := bind_eq_ok_iff.1 h
    exact .share (spares_evalOr (spares_evalNot (ihf hf) f) (ihg hg) _ g) _
  | equal f g ihf ihg =>
    obtain ⟨_, hf, hg⟩ := bind_eq_ok_iff.1 h
    refine .share (spares_evalOr (spares_evalAnd (ihf hf) (ihg hg) f g) ?_ _ _) _
    exact spares_evalAnd (spares_evalNot (ihf hf) f) (spares_evalNot (ihg hg) g) _ _
  | next quantifier course f ih =>
    refine .share ((ih h).bind fun phi => ?_) _
    cases quantifier with
    | some => exact Shared.spares_lift (Next.spares_someStep ctx course phi)
    | all => exact Shared.spares_lift (Next.spares_everyStep ctx course phi)
  | hold quantifier weak course f g ihf ihg =>
    obtain ⟨_, hf, hg⟩ := bind_eq_ok_iff.1 h
    refine .share ((ihf hf).bind fun path => (ihg hg).bind fun reach => ?_) _
    cases quantifier with
    | some => exact Shared.spares_lift (Until.spares_somePath ctx course path weak reach)
    | all => exact Shared.spares_lift (Until.spares_everyPath ctx course path weak reach)
  | bind name f ih =>
    have hinner : ∀ state, (ctx.eval f ((name, state) :: env)).Spares := fun state => ih h
    exact .share (Shared.spares_lift (FirstOrder.spares_bind ctx fun state => (hinner state).run' {})) _
  | jump name f ih =>
    obtain ⟨_, hname, hf⟩ := bind_eq_ok_iff.1 h
    have hstate := spares_resolve (checkBound_eq_ok_iff.1 hname)
    refine .share (.bind (Shared.spares_lift (Worker.spares_attempt hstate)) fun state => ?_) _
    exact (ih hf).bind fun m => Shared.spares_lift (FirstOrder.spares_jump ctx state m)
  | forAll name bound f ihb ihf =>
    obtain ⟨_, hb, hf⟩ := bind_eq_ok_iff.1 h
    have hinner : ∀ state, (ctx.eval f ((name, state) :: env)).Spares := fun state => ihf hf
    refine .share ((ihb hb).bind fun bound => Shared.spares_lift ?_) _
    exact FirstOrder.spares_forAll ctx bound fun state => (hinner state).run' {}
  | forSome name bound f ihb ihf =>
    obtain ⟨_, hb, hf⟩ := bind_eq_ok_iff.1 h
    have hinner : ∀ state, (ctx.eval f ((name, state) :: env)).Spares := fun state => ihf hf
    refine .share ((ihb hb).bind fun bound => Shared.spares_lift ?_) _
    exact FirstOrder.spares_forSome ctx bound fun state => (hinner state).run' {}

theorem spares_check (hmodel : ctx.model = M.toModel A) {f : Formula}
    (h : f.validate (M.toModel A) [] = .ok ()) : (ctx.check f).Spares :=
  Worker.Spares.bind (Shared.Spares.run' (spares_eval hmodel h) {}) fun _ => Worker.spares_compute _

end Context

/-- The worker of a partition does not fail on account of valid formulas. -/
theorem Checker.spares_worker {c : Checker C} {A : Algebra C} {M : ExplicitModel C}
    (hmodel : c.model = M.toModel A) {formulas : List Formula}
    (h : ∀ f ∈ formulas, f.validate (M.toModel A) [] = .ok ()) (p : Partition) :
    (c.worker formulas p).Spares := by
  unfold worker
  cases hmake : Context.make c.algebra c.model p with
  | error cause => exact Failure.spares_misuse cause
  | ok ctx =>
    obtain ⟨localSet, _, hctx⟩ := bind_eq_ok_iff.1 hmake
    cases hctx
    exact Worker.spares_mapM fun f hf => Context.spares_check hmodel (h f hf)

namespace Worker

variable {w : Worker C α}

theorem Spares.outcome (h : w.Spares) : w.outcome.Spares := by
  cases w with
  | done a => exact .of_ok a
  | fail failure => exact .of_error h
  | meet out resume => exact .of_error (Failure.spares_error id)

theorem Spares.receive (h : w.Spares) (result : Except (Failure ChannelError) (Incoming C)) :
    (w.receive result).Spares := by
  cases w with
  | done a => cases result <;> exact h
  | fail failure => cases result <;> exact h
  | meet out resume =>
    cases result with
    | ok incoming => exact h incoming
    | error failure => exact Failure.spares_map (f := .channel) (fun _ h => h) failure

end Worker

namespace Crew

variable {medium : Medium C}

theorem spares_zipWith_receive {workers : List (Worker C α)} (h : ∀ w ∈ workers, w.Spares)
    (results : List (Except (Failure ChannelError) (Incoming C))) :
    ∀ w ∈ List.zipWith Worker.receive workers results, w.Spares := by
  intro w hw
  obtain ⟨i, hi, rfl⟩ := List.mem_iff_getElem.1 hw
  rw [List.getElem_zipWith]
  exact (h _ (List.getElem_mem _)).receive _

theorem spares_outcomes {workers : List (Worker C α)} (h : ∀ w ∈ workers, w.Spares) :
    ∀ outcome ∈ workers.map Worker.outcome, Attempt.Spares outcome := by
  intro outcome houtcome
  obtain ⟨w, hw, rfl⟩ := List.mem_map.1 houtcome
  exact (h w hw).outcome

theorem spares_runFrom {w : Worker C α} {rest : List (Worker C α)} (hw : w.Spares)
    (hrest : ∀ w ∈ rest, w.Spares) : ∀ outcome ∈ runFrom medium w rest, Attempt.Spares outcome := by
  induction w generalizing rest with
  | done a => exact spares_outcomes (List.forall_mem_cons.2 ⟨hw, hrest⟩)
  | fail failure => exact spares_outcomes (List.forall_mem_cons.2 ⟨hw, hrest⟩)
  | meet out resume ih =>
    have hall : ∀ w ∈ Worker.meet out resume :: rest, w.Spares := List.forall_mem_cons.2 ⟨hw, hrest⟩
    unfold runFrom
    split
    · exact spares_outcomes hall
    · split
      · next incoming results _ =>
        have hreceived := spares_zipWith_receive hrest results
        dsimp only
        split
        · exact ih incoming (hw incoming) hreceived
        · exact spares_outcomes (List.forall_mem_cons.2 ⟨hw incoming, hreceived⟩)
      · exact spares_outcomes (spares_zipWith_receive hall _)

/-- A crew does not fail on account of a formula if none of its workers does. -/
theorem spares_run {workers : List (Worker C α)} (h : ∀ w ∈ workers, w.Spares) :
    ∀ outcome ∈ run medium workers, Attempt.Spares outcome := by
  cases workers with
  | nil => simp [run]
  | cons w rest => exact spares_runFrom (h w List.mem_cons_self) fun v hv => h v (List.mem_cons_of_mem _ hv)

end Crew

end ColoredCtl

import ColoredCtl.Check.Evaluate
import ColoredCtl.Proofs.Check.Next

/-!
Evaluation with a journal.

A worker that keeps a journal enters in it every round that it takes part in, with what it receives, and
every operator that it computes, with the rounds held before and after and with the map of the operator.
It is the same worker otherwise: it sends the same packets in the same rounds and comes to the same map, and
its journal has all that it receives, round by round.
-/

namespace ColoredCtl

open Color

variable {C α β : Type}

/-- How a worker computes an operator. An implication or equivalence is computed as another operator. -/
structure Visit (C : Type) where
  formula : Formula
  env : Env
  /-- The number of rounds held when the operator is begun. -/
  begun : Nat
  /-- The number of rounds held when the maps of its operands are there. -/
  ready : Nat
  /-- The number of rounds held when its own map is there. -/
  ended : Nat
  /-- The substitutions that a quantifier goes through. -/
  walked : Packet C

/-- What a worker has done. -/
structure Journal (C : Type) where
  /-- The rounds, each with what was received in it. -/
  rounds : List (Purpose × Incoming C) := []
  /-- The operators in the order in which they were finished, each with its map. -/
  visits : List (Visit C × StateMap C) := []

namespace Journal

/-- Enters a round. -/
def hold (journal : Journal C) (purpose : Purpose) (incoming : Incoming C) : Journal C :=
  { journal with rounds := journal.rounds ++ [(purpose, incoming)] }

/-- Enters an operator. -/
def close (journal : Journal C) (visit : Visit C) (m : StateMap C) : Journal C :=
  { journal with visits := journal.visits ++ [(visit, m)] }

end Journal

/-- A worker with a journal. -/
abbrev Recorder (C : Type) := StateT (Journal C) (Worker C)

/-- A worker with a journal that keeps the maps of the formulas computed so far. -/
abbrev Recorded (C : Type) := StateT (Memo C) (Recorder C)

/-- Enters all rounds of a worker, which have one purpose. -/
def Worker.observe (purpose : Purpose) : Worker C α → Recorder C α
  | .done a => pure a
  | .fail cause => liftM (Worker.fail cause : Worker C α)
  | .meet out resume => do
    let incoming ← (liftM (Worker.exchange out) : Recorder C (Incoming C))
    modify (·.hold purpose incoming)
    (resume incoming).observe purpose

/-- The map of a formula that was computed before, or else a computed map, which is kept. -/
def keep (f : Formula) (compute : Recorded C (StateMap C)) : Recorded C (StateMap C) := do
  match (← get).find? f with
  | some m => return m
  | none =>
    let m ← compute
    modify (·.insert f m)
    return m

/-- Computes an operator by its operands, and enters it. -/
def visit (f : Formula) (env : Env) (operands : Recorded C β)
    (body : β → Recorder C (Packet C × StateMap C)) : Recorded C (StateMap C) := do
  let begun := (← getThe (Journal C)).rounds.length
  let operands ← operands
  let ready := (← getThe (Journal C)).rounds.length
  let (walked, m) ← body operands
  let ended := (← getThe (Journal C)).rounds.length
  modifyThe (Journal C) (·.close ⟨f, env, begun, ready, ended, walked⟩ m)
  return m

theorem visit_run (f : Formula) (env : Env) (operands : Recorded C β)
    (body : β → Recorder C (Packet C × StateMap C)) (memo : Memo C) :
    (visit f env operands body).run memo = (do
      let before ← get
      let r ← operands.run memo
      let between ← get
      let p ← body r.1
      let after ← get
      modify (·.close ⟨f, env, before.rounds.length, between.rounds.length, after.rounds.length, p.1⟩ p.2)
      pure (p.2, r.2)) := by
  simp only [visit, getThe, MonadStateOf.get, modifyThe, liftM, monadLift, MonadLift.monadLift,
    StateT.run_bind, StateT.run_lift, bind_assoc, pure_bind]
  rfl

/-- The map of an operator, which is computed once. -/
def note (f : Formula) (env : Env) (operands : Recorded C β)
    (body : β → Recorder C (Packet C × StateMap C)) : Recorded C (StateMap C) :=
  keep f (visit f env operands body)

namespace FirstOrder

def recordBind (ctx : Context C) (eval : Nat → Recorder C (StateMap C)) : Recorder C (StateMap C) := do
  let entries ← (List.range ctx.stateCount).filterMapM fun state => do
    let m ← eval state
    let value ← (liftM (ownValue? ctx state m) : Recorder C (Option C))
    return value.map (state, ·)
  return .ofEntries entries ctx.stateCount

/-- Gives the substitutions too. -/
def recordForAll (ctx : Context C) (bound : StateMap C) (eval : Nat → Recorder C (StateMap C)) :
    Recorder C (Packet C × StateMap C) := do
  let values ← (substitutions ctx bound).observe .tell
  let start := ctx.partition.localStates.map (·, ctx.algebra.full.get)
  let colors ← values.foldlM
    (fun colors (state, legal) => do
      let m ← eval state
      let rest ← (liftM (restrict ctx legal m colors) : Recorder C (Packet C))
      return rest)
    start
  return (values, .ofEntries colors ctx.stateCount)

/-- Gives the substitutions too. -/
def recordForSome (ctx : Context C) (bound : StateMap C) (eval : Nat → Recorder C (StateMap C)) :
    Recorder C (Packet C × StateMap C) := do
  let values ← (substitutions ctx bound).observe .tell
  let start ← (liftM ctx.newResult : Recorder C (Accumulator C))
  let acc ← values.foldlM
    (fun acc (state, legal) => do
      let m ← eval state
      let acc ← (liftM (collect ctx legal m acc) : Recorder C (Accumulator C))
      return acc)
    start
  return (values, acc.freeze)

end FirstOrder

/-- "Every step", with the purposes of its rounds. -/
def Next.recordEveryStep (ctx : Context C) (course : Course) (phi : StateMap C) :
    Recorder C (StateMap C) := do
  let witnesses ← (witnesses ctx course phi).observe .tell
  let candidates ← (someStep ctx course phi).observe .push
  (settle ctx course phi witnesses candidates).observe .tell

/-- An operator that goes through no substitutions. -/
def Recorder.direct (x : Recorder C (StateMap C)) : Recorder C (Packet C × StateMap C) :=
  Prod.mk [] <$> x

namespace Context

def recordNot (ctx : Context C) (f : Formula) (env : Env) (m : Recorded C (StateMap C)) :
    Recorded C (StateMap C) :=
  note (.not f) env m fun m => .direct (liftM (ctx.localMap.diff m))

def recordAnd (f g : Formula) (env : Env) (m k : Recorded C (StateMap C)) : Recorded C (StateMap C) :=
  note (.and f g) env (do return (← m, ← k)) fun (m, k) => .direct (liftM (m.inter k))

def recordOr (f g : Formula) (env : Env) (m k : Recorded C (StateMap C)) : Recorded C (StateMap C) :=
  note (.or f g) env (do return (← m, ← k)) fun (m, k) => .direct (liftM (m.union k))

/-- The map of a formula at the states that the worker owns, with a journal. -/
def record (ctx : Context C) : Formula → Env → Recorded C (StateMap C)
  | .top, env => note .top env (pure ()) fun _ => .direct (pure ctx.localMap)
  | .bottom, env => note .bottom env (pure ()) fun _ => .direct (pure (.empty ctx.stateCount))
  | .atom a, env => note (.atom a) env (pure ()) fun _ => .direct (liftM (ctx.evalAtom a))
  | .reference name, env =>
    note (.reference name) env (pure ()) fun _ => .direct (liftM (ctx.evalReference env name))
  | .not f, env => ctx.recordNot f env (ctx.record f env)
  | .and f g, env => recordAnd f g env (ctx.record f env) (ctx.record g env)
  | .or f g, env => recordOr f g env (ctx.record f env) (ctx.record g env)
  | .implies f g, env =>
    keep (.implies f g)
      (recordOr (.not f) g env (ctx.recordNot f env (ctx.record f env)) (ctx.record g env))
  | .equal f g, env =>
    let m := ctx.record f env
    let k := ctx.record g env
    keep (.equal f g) (recordOr (.and f g) (.and (.not f) (.not g)) env (recordAnd f g env m k)
      (recordAnd (.not f) (.not g) env (ctx.recordNot f env m) (ctx.recordNot g env k)))
  | .next quantifier course f, env =>
    note (.next quantifier course f) env (ctx.record f env) fun phi => .direct
      (match quantifier with
      | .some => (Next.someStep ctx course phi).observe .push
      | .all => Next.recordEveryStep ctx course phi)
  | .hold quantifier weak course f g, env =>
    note (.hold quantifier weak course f g) env (do return (← ctx.record f env, ← ctx.record g env))
      fun (path, reach) => .direct
        (match quantifier with
        | .some => (Until.somePath ctx weak course path reach).observe .push
        | .all => (Until.everyPath ctx weak course path reach).observe .tell)
  | .bind name f, env =>
    note (.bind name f) env (pure ()) fun _ => .direct
      (FirstOrder.recordBind ctx fun state => (ctx.record f ((name, state) :: env)).run' {})
  | .jump name f, env =>
    note (.jump name f) env (do
        let state ← (liftM (resolve env name) : Recorded C Nat)
        return (state, ← ctx.record f env))
      fun (state, m) => .direct ((FirstOrder.jump ctx state m).observe .tell)
  | .forAll name bound f, env =>
    note (.forAll name bound f) env (ctx.record bound env) fun bound =>
      FirstOrder.recordForAll ctx bound fun state => (ctx.record f ((name, state) :: env)).run' {}
  | .forSome name bound f, env =>
    note (.forSome name bound f) env (ctx.record bound env) fun bound =>
      FirstOrder.recordForSome ctx bound fun state => (ctx.record f ((name, state) :: env)).run' {}

/-- The values of a formula without free names that are not empty, with a journal. -/
def recordCheck (ctx : Context C) (f : Formula) : Recorder C (StateMap C) := do
  let m ← (ctx.record f []).run' {}
  (liftM (m.materialize ctx.algebra) : Recorder C (StateMap C))

end Context

namespace Worker

/-- The worker that gives, with its result, all that it has received. -/
def traced : Worker C α → List (Incoming C) → Worker C (α × List (Incoming C))
  | .done a, received => .done (a, received)
  | .fail cause, _ => .fail cause
  | .meet out resume, received =>
    .meet out fun incoming => (resume incoming).traced (received ++ [incoming])

theorem map_fst_traced (w : Worker C α) (received : List (Incoming C)) :
    Prod.fst <$> w.traced received = w := by
  induction w generalizing received with
  | done a => rfl
  | fail cause => rfl
  | meet out resume ih => exact congrArg (Worker.meet out) (funext fun incoming => ih incoming _)

theorem traced_bind (w : Worker C α) (f : α → Worker C β) (received : List (Incoming C)) :
    (w >>= f).traced received = w.traced received >>= fun r => (f r.1).traced r.2 := by
  induction w generalizing received with
  | done a => rfl
  | fail cause => rfl
  | meet out resume ih => exact congrArg (Worker.meet out) (funext fun incoming => ih incoming _)

/-- The worker takes part in no rounds. -/
def Silent (w : Worker C α) : Prop := w.out? = none

theorem Silent.traced_eq {w : Worker C α} (h : w.Silent) (received : List (Incoming C)) :
    w.traced received = (·, received) <$> w := by
  cases w with
  | done a => rfl
  | fail cause => rfl
  | meet out resume => cases h

theorem Silent.bind {w : Worker C α} {f : α → Worker C β} (hw : w.Silent) (hf : ∀ a, (f a).Silent) :
    (w >>= f).Silent := by
  cases w with
  | done a => exact hf a
  | fail cause => rfl
  | meet out resume => cases hw

theorem silent_attempt (x : Attempt α) : (liftM x : Worker C α).Silent := by
  cases x <;> rfl

theorem silent_compute (x : Except Misuse α) : (liftM x : Worker C α).Silent := by
  cases x <;> rfl

end Worker

/-- What was received in the rounds of a journal. -/
def Journal.received (journal : Journal C) : List (Incoming C) := journal.rounds.map (·.2)

/-- The computation is that of the worker, and the journal has all that the worker receives. -/
def Recorder.Mirrors (x : Recorder C α) (w : Worker C α) : Prop :=
  ∀ journal, (fun r => (r.1, r.2.received)) <$> x.run journal = w.traced journal.received

/-- The computation is that of the worker that keeps the same maps, and the journal has all that the worker
receives. -/
def Recorded.Mirrors (x : Recorded C α) (w : Shared C α) : Prop :=
  ∀ memo, Recorder.Mirrors (x.run memo) (w.run memo)

namespace Recorder.Mirrors

theorem of_pure (a : α) : Mirrors (C := C) (pure a) (pure a) := fun _ => rfl

/-- The worker goes on with a part of the result only. -/
theorem bind_of_map {γ : Type} {x : Recorder C α} {p : α → γ} {w : Worker C γ} {f : α → Recorder C β}
    {g : γ → Worker C β} (hx : Mirrors (p <$> x) w) (hf : ∀ a, Mirrors (f a) (g (p a))) :
    Mirrors (x >>= f) (w >>= g) := by
  intro journal
  calc (fun r => (r.1, r.2.received)) <$> (x >>= f).run journal
    _ = x.run journal >>= fun r => (fun r => (r.1, r.2.received)) <$> (f r.1).run r.2 := by
      rw [StateT.run_bind, map_bind]
    _ = x.run journal >>= fun r => (g (p r.1)).traced r.2.received := bind_congr fun r => hf r.1 r.2
    _ = (fun r => (r.1, r.2.received)) <$> (p <$> x).run journal >>= fun r => (g r.1).traced r.2 := by
      rw [StateT.run_map, bind_map_left, bind_map_left]
    _ = (w >>= g).traced journal.received := by rw [hx journal, Worker.traced_bind]

theorem bind {x : Recorder C α} {w : Worker C α} {f : α → Recorder C β} {g : α → Worker C β}
    (hx : Mirrors x w) (hf : ∀ a, Mirrors (f a) (g a)) : Mirrors (x >>= f) (w >>= g) :=
  bind_of_map (p := id) (by rwa [id_map]) hf

/-- What is read in the journal does not show. -/
theorem read {f : Journal C → Recorder C α} {w : Worker C α} (h : ∀ journal, Mirrors (f journal) w) :
    Mirrors (get >>= f) w :=
  fun journal => h journal journal

/-- A step without rounds. -/
theorem lift {w : Worker C α} (h : w.Silent) : Mirrors (liftM w : Recorder C α) w := by
  intro journal
  rw [h.traced_eq]
  change (fun r => (r.1, r.2.received)) <$> (w >>= fun a => pure (a, journal)) = _
  rw [map_bind, map_eq_pure_bind]
  rfl

theorem attempt (x : Attempt α) : Mirrors (liftM (liftM x : Worker C α) : Recorder C α) (liftM x) :=
  lift (Worker.silent_attempt x)

theorem compute (x : Except Misuse α) :
    Mirrors (liftM (liftM x : Worker C α) : Recorder C α) (liftM x) :=
  lift (Worker.silent_compute x)

/-- An operator that is entered is no round. -/
theorem close (visit : Visit C) (m : StateMap C) : Mirrors (modify (·.close visit m)) (pure ⟨⟩) :=
  fun _ => rfl

theorem observe (purpose : Purpose) (w : Worker C α) : Mirrors (w.observe purpose) w := by
  induction w with
  | done a => exact of_pure a
  | fail cause => exact lift rfl
  | meet out resume ih =>
    intro journal
    refine congrArg (Worker.meet out) (funext fun incoming => ?_)
    have hheld : (journal.hold purpose incoming).received = journal.received ++ [incoming] := by
      simp [Journal.hold, Journal.received]
    rw [← hheld]
    exact ih incoming _

theorem foldlM {f : β → α → Recorder C β} {g : β → α → Worker C β} (h : ∀ b a, Mirrors (f b a) (g b a))
    (l : List α) (b : β) : Mirrors (l.foldlM f b) (l.foldlM g b) := by
  induction l generalizing b with
  | nil => exact of_pure b
  | cons a l ih =>
    rw [List.foldlM_cons, List.foldlM_cons]
    exact (h b a).bind fun next => ih next

theorem filterMapM {f : α → Recorder C (Option β)} {g : α → Worker C (Option β)}
    (h : ∀ a, Mirrors (f a) (g a)) (l : List α) : Mirrors (l.filterMapM f) (l.filterMapM g) := by
  induction l with
  | nil => exact of_pure []
  | cons a l ih =>
    rw [List.filterMapM_cons, List.filterMapM_cons]
    refine (h a).bind fun found => ?_
    cases found with
    | none => exact ih
    | some b => exact ih.bind fun rest => of_pure (b :: rest)

/-- The worker is the computation without its journal. -/
theorem map_fst_run {x : Recorder C α} {w : Worker C α} (h : Mirrors x w) (journal : Journal C) :
    Prod.fst <$> x.run journal = w := by
  rw [← Worker.map_fst_traced w journal.received, ← h journal, Functor.map_map]

end Recorder.Mirrors

namespace FirstOrder

variable (ctx : Context C) {eval : Nat → Recorder C (StateMap C)} {plain : Nat → Worker C (StateMap C)}

theorem recordBind_mirrors (h : ∀ state, (eval state).Mirrors (plain state)) :
    (recordBind ctx eval).Mirrors (FirstOrder.bind ctx plain) :=
  have hentry : ∀ state, Recorder.Mirrors (do
        let m ← eval state
        let value ← (liftM (ownValue? ctx state m) : Recorder C (Option C))
        return value.map (state, ·)) (do
        let m ← plain state
        let value ← (liftM (ownValue? ctx state m) : Worker C (Option C))
        return value.map (state, ·)) := fun state =>
    (h state).bind fun m => (Recorder.Mirrors.compute (ownValue? ctx state m)).bind fun _ => .of_pure _
  (Recorder.Mirrors.filterMapM hentry _).bind fun _ => .of_pure _

theorem recordForAll_mirrors (bound : StateMap C) (h : ∀ state, (eval state).Mirrors (plain state)) :
    Recorder.Mirrors (Prod.snd <$> recordForAll ctx bound eval) (FirstOrder.forAll ctx bound plain) := by
  unfold recordForAll FirstOrder.forAll
  simp only [map_bind]
  refine (Recorder.Mirrors.observe _ _).bind fun values => ?_
  refine .bind (.foldlM ?_ values _) fun colors => .of_pure _
  intro colors entry
  exact (h entry.1).bind fun m => .compute (restrict ctx entry.2 m colors)

theorem recordForSome_mirrors (bound : StateMap C) (h : ∀ state, (eval state).Mirrors (plain state)) :
    Recorder.Mirrors (Prod.snd <$> recordForSome ctx bound eval) (FirstOrder.forSome ctx bound plain) := by
  unfold recordForSome FirstOrder.forSome
  simp only [map_bind]
  refine (Recorder.Mirrors.observe _ _).bind fun values => ?_
  refine (Recorder.Mirrors.compute ctx.newResult).bind fun start => ?_
  refine .bind (.foldlM ?_ values start) fun acc => .of_pure _
  intro acc entry
  exact (h entry.1).bind fun m => .attempt (collect ctx entry.2 m acc)

end FirstOrder

theorem Next.recordEveryStep_mirrors (ctx : Context C) (course : Course) (phi : StateMap C) :
    (recordEveryStep ctx course phi).Mirrors (everyStep ctx course phi) := by
  rw [everyStep_eq]
  refine (Recorder.Mirrors.observe _ _).bind fun witnesses => ?_
  exact (Recorder.Mirrors.observe _ _).bind fun candidates => .observe _ _

namespace Recorded.Mirrors

theorem of_pure (a : α) : Mirrors (C := C) (pure a) (pure a) := fun _ _ => rfl

theorem bind {x : Recorded C α} {w : Shared C α} {f : α → Recorded C β} {g : α → Shared C β}
    (hx : Mirrors x w) (hf : ∀ a, Mirrors (f a) (g a)) : Mirrors (x >>= f) (w >>= g) := by
  intro memo
  rw [StateT.run_bind, StateT.run_bind]
  exact (hx memo).bind fun r => hf r.1 r.2

theorem lift {x : Recorder C α} {w : Worker C α} (h : x.Mirrors w) :
    Mirrors (liftM x : Recorded C α) (liftM w) := by
  intro memo
  exact h.bind fun a => .of_pure (a, memo)

theorem run' {x : Recorded C α} {w : Shared C α} (h : Mirrors x w) (memo : Memo C) :
    (x.run' memo).Mirrors (w.run' memo) :=
  (h memo).bind fun r => .of_pure r.1

theorem keep (f : Formula) {x : Recorded C (StateMap C)} {w : Shared C (StateMap C)} (h : Mirrors x w) :
    Mirrors (ColoredCtl.keep f x) (share f w) := by
  intro memo
  simp only [ColoredCtl.keep, share, StateT.run_bind, StateT.run_get, pure_bind]
  cases memo.find? f with
  | some m => exact .of_pure (m, memo)
  | none => exact bind h (fun m memo => .of_pure (m, memo.insert f m)) memo

theorem visit (f : Formula) (env : Env) {operands : Recorded C β} {w : Shared C β}
    {body : β → Recorder C (Packet C × StateMap C)} {g : β → Worker C (StateMap C)}
    (hoperands : Mirrors operands w) (hbody : ∀ b, (Prod.snd <$> body b).Mirrors (g b)) :
    Mirrors (ColoredCtl.visit f env operands body) (w >>= fun b => liftM (g b)) := by
  intro memo
  rw [visit_run, StateT.run_bind]
  refine .read fun before => (hoperands memo).bind fun r => .read fun between => ?_
  refine (hbody r.1).bind_of_map fun p => .read fun after => ?_
  exact Recorder.Mirrors.bind (.close _ _) fun _ => .of_pure _

/-- An operator is computed from its operands, and its map is kept. -/
theorem note (f : Formula) (env : Env) {operands : Recorded C β} {w : Shared C β}
    {body : β → Recorder C (Packet C × StateMap C)} {g : β → Worker C (StateMap C)}
    {compute : Shared C (StateMap C)} (hcompute : compute = w >>= fun b => liftM (g b))
    (hoperands : Mirrors operands w) (hbody : ∀ b, (Prod.snd <$> body b).Mirrors (g b)) :
    Mirrors (ColoredCtl.note f env operands body) (share f compute) := by
  rw [hcompute]
  exact keep f (visit f env hoperands hbody)

theorem pair {γ : Type} {x : Recorded C α} {y : Recorded C γ} {v : Shared C α} {w : Shared C γ}
    (hx : Mirrors x v) (hy : Mirrors y w) :
    Mirrors (do return (← x, ← y)) (do return (← v, ← w)) :=
  hx.bind fun a => hy.bind fun b => of_pure (a, b)

end Recorded.Mirrors

theorem Recorder.Mirrors.direct {x : Recorder C (StateMap C)} {w : Worker C (StateMap C)}
    (h : x.Mirrors w) : Mirrors (Prod.snd <$> x.direct) w := by
  have heq : Prod.snd <$> x.direct = x := by
    rw [Recorder.direct, Functor.map_map]
    exact id_map x
  rwa [heq]

namespace Context

open Recorded

variable (ctx : Context C) (env : Env) {f g : Formula} {m k : Recorded C (StateMap C)}
  {v w : Shared C (StateMap C)}

theorem silent_evalAtom (a : Atom) : (ctx.evalAtom a).Silent :=
  (Worker.silent_attempt _).bind fun _ => Worker.silent_compute _

theorem silent_evalReference (name : String) : (ctx.evalReference env name).Silent := by
  refine (Worker.silent_attempt _).bind fun state => ?_
  split <;> rfl

theorem recordNot_mirrors (hm : m.Mirrors v) : (ctx.recordNot f env m).Mirrors (ctx.evalNot f v) :=
  .note _ env rfl hm fun r => .direct (.compute (ctx.localMap.diff r))

theorem recordAnd_mirrors (hm : m.Mirrors v) (hk : k.Mirrors w) :
    (recordAnd f g env m k).Mirrors (evalAnd f g v w) :=
  .note _ env (by simp only [bind_assoc, pure_bind]; rfl) (hm.pair hk) fun r =>
    .direct (.compute (r.1.inter r.2))

theorem recordOr_mirrors (hm : m.Mirrors v) (hk : k.Mirrors w) :
    (recordOr f g env m k).Mirrors (evalOr f g v w) :=
  .note _ env (by simp only [bind_assoc, pure_bind]; rfl) (hm.pair hk) fun r =>
    .direct (.compute (r.1.union r.2))

/-- The journal does not change what a worker does. -/
theorem record_mirrors (f : Formula) (env : Env) : (ctx.record f env).Mirrors (ctx.eval f env) := by
  induction f generalizing env with
  | top => exact .note _ env rfl (.of_pure ()) fun _ => .direct (.of_pure ctx.localMap)
  | bottom =>
    exact .note _ env rfl (.of_pure ()) fun _ => .direct (.of_pure (StateMap.empty ctx.stateCount))
  | atom a => exact .note _ env rfl (.of_pure ()) fun _ => .direct (.lift (ctx.silent_evalAtom a))
  | reference name =>
    exact .note _ env rfl (.of_pure ()) fun _ => .direct (.lift (ctx.silent_evalReference env name))
  | not f ih => exact ctx.recordNot_mirrors env (ih env)
  | and f g ihf ihg => exact recordAnd_mirrors env (ihf env) (ihg env)
  | or f g ihf ihg => exact recordOr_mirrors env (ihf env) (ihg env)
  | implies f g ihf ihg =>
    exact .keep _ (recordOr_mirrors env (ctx.recordNot_mirrors env (ihf env)) (ihg env))
  | equal f g ihf ihg =>
    exact .keep _ (recordOr_mirrors env (recordAnd_mirrors env (ihf env) (ihg env))
      (recordAnd_mirrors env (ctx.recordNot_mirrors env (ihf env)) (ctx.recordNot_mirrors env (ihg env))))
  | next quantifier course f ih =>
    cases quantifier with
    | some =>
      exact .note _ env rfl (ih env) fun phi => .direct (.observe .push (Next.someStep ctx course phi))
    | all => exact .note _ env rfl (ih env) fun phi => .direct (Next.recordEveryStep_mirrors ctx course phi)
  | hold quantifier weak course f g ihf ihg =>
    cases quantifier with
    | some =>
      exact .note _ env (by simp only [bind_assoc, pure_bind]) ((ihf env).pair (ihg env)) fun r =>
        .direct (.observe .push (Until.somePath ctx weak course r.1 r.2))
    | all =>
      exact .note _ env (by simp only [bind_assoc, pure_bind]) ((ihf env).pair (ihg env)) fun r =>
        .direct (.observe .tell (Until.everyPath ctx weak course r.1 r.2))
  | bind name f ih =>
    exact .note _ env rfl (.of_pure ()) fun _ => .direct (FirstOrder.recordBind_mirrors ctx fun state =>
      (ih ((name, state) :: env)).run' {})
  | jump name f ih =>
    have hresolve : Mirrors (liftM (resolve env name) : Recorded C Nat)
        (liftM (resolve env name) : Shared C Nat) :=
      .lift (.attempt (resolve env name))
    refine .note _ env ?_ (hresolve.pair (ih env)) fun r =>
      .direct (.observe .tell (FirstOrder.jump ctx r.1 r.2))
    simp only [bind_assoc, pure_bind]
  | forAll name bound f ihb ihf =>
    exact .note _ env rfl (ihb env) fun bound => FirstOrder.recordForAll_mirrors ctx bound fun state =>
      (ihf ((name, state) :: env)).run' {}
  | forSome name bound f ihb ihf =>
    exact .note _ env rfl (ihb env) fun bound => FirstOrder.recordForSome_mirrors ctx bound fun state =>
      (ihf ((name, state) :: env)).run' {}

theorem recordCheck_mirrors (f : Formula) : (ctx.recordCheck f).Mirrors (ctx.check f) :=
  ((ctx.record_mirrors f []).run' {}).bind fun m => .compute (m.materialize ctx.algebra)

end Context

end ColoredCtl

import ColoredCtl.Proofs.Check.Caching
import ColoredCtl.Proofs.Check.Replacement
import ColoredCtl.Proofs.Interchange

/-!
Operators that are shared.

A formula has the same maps when all formulas in it are computed anew, wherever they stand, as when each of them
has one operator. The workers keep maps for the same formulas, and each of these maps is what the workers would
come to again.
-/

namespace ColoredCtl

open Color

variable {C : Type}

namespace Context

def apartNot (ctx : Context C) (m : Worker C (StateMap C)) : Worker C (StateMap C) := do
  ctx.localMap.diff (← m)

def apartAnd (m k : Worker C (StateMap C)) : Worker C (StateMap C) := do
  let m ← m
  let k ← k
  m.inter k

def apartOr (m k : Worker C (StateMap C)) : Worker C (StateMap C) := do
  let m ← m
  let k ← k
  m.union k

/-- The map of a formula at the states that the worker owns. Each formula is computed wherever it stands, and
no map is kept. -/
def evalApart (ctx : Context C) : Formula → Env → Worker C (StateMap C)
  | .top, _ => pure ctx.localMap
  | .bottom, _ => pure (.empty ctx.stateCount)
  | .atom a, _ => ctx.evalAtom a
  | .reference name, env => ctx.evalReference env name
  | .not f, env => ctx.apartNot (ctx.evalApart f env)
  | .and f g, env => apartAnd (ctx.evalApart f env) (ctx.evalApart g env)
  | .or f g, env => apartOr (ctx.evalApart f env) (ctx.evalApart g env)
  | .implies f g, env => apartOr (ctx.apartNot (ctx.evalApart f env)) (ctx.evalApart g env)
  | .equal f g, env =>
    let m := ctx.evalApart f env
    let k := ctx.evalApart g env
    apartOr (apartAnd m k) (apartAnd (ctx.apartNot m) (ctx.apartNot k))
  | .next quantifier course f, env => do
    let phi ← ctx.evalApart f env
    match quantifier with
    | .some => Next.someStep ctx course phi
    | .all => Next.everyStep ctx course phi
  | .hold quantifier weak course f g, env => do
    let path ← ctx.evalApart f env
    let reach ← ctx.evalApart g env
    match quantifier with
    | .some => Until.somePath ctx weak course path reach
    | .all => Until.everyPath ctx weak course path reach
  | .bind name f, env => FirstOrder.bind ctx fun state => ctx.evalApart f ((name, state) :: env)
  | .jump name f, env => do
    let state ← resolve env name
    let m ← ctx.evalApart f env
    FirstOrder.jump ctx state m
  | .forAll name bound f, env => do
    let bound ← ctx.evalApart bound env
    FirstOrder.forAll ctx bound fun state => ctx.evalApart f ((name, state) :: env)
  | .forSome name bound f, env => do
    let bound ← ctx.evalApart bound env
    FirstOrder.forSome ctx bound fun state => ctx.evalApart f ((name, state) :: env)

end Context

/-- An evaluation that starts without kept maps computes its formula. -/
theorem run'_share {α : Type} (f : Formula) (x : Shared C α) (body : α → Worker C (StateMap C)) :
    (share f (x >>= fun a => liftM (body a))).run' {} = x.run {} >>= fun p => body p.1 := by
  have hlift (a : α) (memo : Memo C) :
      (liftM (body a) : Shared C (StateMap C)).run memo = body a >>= fun m => pure (m, memo) := rfl
  rw [StateT.run'_eq, run_share_of_unknown (Memo.find?_empty f), StateT.run_bind]
  simp only [hlift, map_bind, bind_assoc, pure_bind, map_pure, bind_pure]

namespace Team

open Crew

variable {A : Algebra C} {R : Reading A} {M : Model C} {S : Nat → Kripke} {K : Nat} (T : Team R M S K)
  {α β : Type} {env : Env} {scope : List String} {f g : Formula}

/-- The workers keep maps for the same formulas, and would come to these maps again. -/
def Coherent (env : Env) (memo : Fin K → Memo C) : Prop :=
  ∀ f, (∀ i, (memo i).find? f = none) ∨ ∃ m : Fin K → StateMap C, (∀ i, (memo i).find? f = some (m i)) ∧
    Yields (T.Round .tell) (fun i => (T.ctx i).evalApart f env) m

theorem coherent_empty (env : Env) : T.Coherent env fun _ => {} := by
  intro f
  left
  simp

/-- With kept maps the workers come to the same results as without. -/
structure Agrees (env : Env) (x : Fin K → Shared C α) (v : Fin K → Worker C α) (a : Fin K → α) : Prop where
  yields : Yields (T.Round .tell) v a
  run : ∀ memo, T.Coherent env memo → ∃ memo', T.Coherent env memo' ∧
    Yields (T.Round .tell) (fun i => (x i).run (memo i)) fun i => (a i, memo' i)

namespace Agrees

variable {T} {x : Fin K → Shared C α} {v : Fin K → Worker C α} {a : Fin K → α}

theorem done (a : Fin K → α) : T.Agrees env (fun i => pure (a i)) (fun i => pure (a i)) a :=
  ⟨.done a, fun memo hmemo => ⟨memo, hmemo, .done fun i => (a i, memo i)⟩⟩

theorem pair {y : Fin K → Shared C β} {w : Fin K → Worker C β} {b : Fin K → β} (h : T.Agrees env x v a)
    (h' : T.Agrees env y w b) :
    T.Agrees env (fun i => do return (← x i, ← y i)) (fun i => do return (← v i, ← w i))
      fun i => (a i, b i) := by
  refine ⟨h.yields.bind (h'.yields.bind (.done fun i => (a i, b i))), fun memo hmemo => ?_⟩
  obtain ⟨memo', hmemo', hx⟩ := h.run memo hmemo
  obtain ⟨memo'', hmemo'', hy⟩ := h'.run memo' hmemo'
  refine ⟨memo'', hmemo'', ?_⟩
  simp only [StateT.run_bind]
  exact hx.bind (hy.bind (.done fun i => ((a i, b i), memo'' i)))

/-- What is kept is what would be computed. -/
theorem share {x : Fin K → Shared C (StateMap C)} {m : Fin K → StateMap C}
    (h : T.Agrees env x (fun i => (T.ctx i).evalApart f env) m) :
    T.Agrees env (fun i => ColoredCtl.share f (x i)) (fun i => (T.ctx i).evalApart f env) m := by
  refine ⟨h.yields, fun memo hmemo => ?_⟩
  rcases hmemo f with hnone | ⟨k, hk, hyields⟩
  · obtain ⟨memo', hmemo', hx⟩ := h.run memo hmemo
    refine ⟨fun i => (memo' i).insert f (m i), ?_, ?_⟩
    · intro g
      simp only [Memo.find?_insert]
      by_cases heq : g = f
      · subst heq
        exact .inr ⟨m, fun i => by simp, h.yields⟩
      · simp only [if_neg heq]
        exact hmemo' g
    · simp only [run_share_of_unknown (hnone _)]
      exact hx.bind (.done fun i => (m i, (memo' i).insert f (m i)))
  · -- The workers came to the kept map in the same way, so they would come to it again.
    obtain rfl := hyields.unique (T.determined _) h.yields
    refine ⟨memo, hmemo, ?_⟩
    simp only [run_share_of_known (hk _)]
    exact .done fun i => (k i, memo i)

/-- A formula is computed from its operands. -/
theorem node {body body' : Fin K → α → Worker C (StateMap C)} {r : Fin K → StateMap C}
    (h : T.Agrees env x v a)
    (hends : Yields (T.Round .tell)
      (fun i => (ColoredCtl.share f (x i >>= fun a => liftM (body i a))).run' {}) r)
    (hbody : Yields (T.Round .tell) (fun i => body i (a i)) r →
      Yields (T.Round .tell) (fun i => body' i (a i)) r)
    (hapart : ∀ i, (T.ctx i).evalApart f env = v i >>= body' i) :
    T.Agrees env (fun i => ColoredCtl.share f (x i >>= fun a => liftM (body i a)))
      (fun i => (T.ctx i).evalApart f env) r := by
  simp only [run'_share] at hends
  -- That the workers come to results at all is known of the evaluation that starts without kept maps.
  obtain ⟨_, _, hx⟩ := h.run _ (T.coherent_empty env)
  have hr := hx.of_bind (T.determined _) hends
  refine share ⟨?_, fun memo hmemo => ?_⟩
  · simp only [hapart]
    exact h.yields.bind (hbody hr)
  · obtain ⟨memo', hmemo', hx⟩ := h.run memo hmemo
    refine ⟨memo', hmemo', ?_⟩
    simp only [StateT.run_bind]
    exact hx.bind (hr.bind (.done fun i => (r i, memo' i)))

end Agrees

/-- The workers come to the maps that show where a formula holds, with kept maps and without. -/
def Settles (f : Formula) (env : Env) : Prop :=
  ∃ m, T.Shows (f.extent S env) m ∧
    T.Agrees env (fun i => (T.ctx i).eval f env) (fun i => (T.ctx i).evalApart f env) m

section

variable {T} (hvalid : f.validate M scope = .ok ()) (henv : env.Binds M.stateCount scope)

include hvalid henv

/-- A formula is computed from its operands, and what stands under names in it may be computed without kept
maps. -/
theorem Agrees.settles {x : Fin K → Shared C α} {v : Fin K → Worker C α} {a : Fin K → α}
    (h : T.Agrees env x v a) (body body' : Fin K → α → Worker C (StateMap C))
    (hbody : ∀ r, Yields (T.Round .tell) (fun i => body i (a i)) r →
      Yields (T.Round .tell) (fun i => body' i (a i)) r)
    (heval : ∀ i, (T.ctx i).eval f env = ColoredCtl.share f (x i >>= fun a => liftM (body i a)))
    (hapart : ∀ i, (T.ctx i).evalApart f env = v i >>= body' i) : T.Settles f env := by
  obtain ⟨r, hyields, hshows⟩ := T.eval_spec f hvalid henv
  refine ⟨r, hshows, ?_⟩
  simp only [heval] at hyields ⊢
  exact h.node hyields (hbody r) hapart

/-- An operator without operands. -/
theorem settles_leaf {body : Fin K → Worker C (StateMap C)}
    (heval : ∀ i, (T.ctx i).eval f env = ColoredCtl.share f (liftM (body i)))
    (hapart : ∀ i, (T.ctx i).evalApart f env = body i) : T.Settles f env :=
  (Agrees.done fun _ => ()).settles hvalid henv (fun i _ => body i) (fun i _ => body i) (fun _ hr => hr) heval hapart

/-- An operator with one operand. -/
theorem Settles.unary {h : Formula} (hh : T.Settles h env) (body : Fin K → StateMap C → Worker C (StateMap C))
    (heval : ∀ i, (T.ctx i).eval f env =
      ColoredCtl.share f ((T.ctx i).eval h env >>= fun m => liftM (body i m)))
    (hapart : ∀ i, (T.ctx i).evalApart f env = (T.ctx i).evalApart h env >>= body i) : T.Settles f env := by
  obtain ⟨m, _, hm⟩ := hh
  exact hm.settles hvalid henv body body (fun _ hr => hr) heval hapart

/-- An operator with two operands. -/
theorem Settles.binary {h k : Formula} (hh : T.Settles h env) (hk : T.Settles k env)
    (body : Fin K → StateMap C → StateMap C → Worker C (StateMap C))
    (heval : ∀ i, (T.ctx i).eval f env = ColoredCtl.share f (do
      let m ← (T.ctx i).eval h env
      let m' ← (T.ctx i).eval k env
      liftM (body i m m')))
    (hapart : ∀ i, (T.ctx i).evalApart f env = (do
      let m ← (T.ctx i).evalApart h env
      let m' ← (T.ctx i).evalApart k env
      body i m m')) : T.Settles f env := by
  obtain ⟨m, _, hm⟩ := hh
  obtain ⟨m', _, hm'⟩ := hk
  refine (hm.pair hm').settles hvalid henv (fun i p => body i p.1 p.2) (fun i p => body i p.1 p.2)
    (fun _ hr => hr) ?_ ?_
  · intro i
    simp only [heval, bind_assoc, pure_bind]
  · intro i
    simp only [hapart, bind_assoc, pure_bind]

end

section Connectives

variable {T}

theorem Settles.not (hf : T.Settles f env) (hvalid : f.validate M scope = .ok ())
    (henv : env.Binds M.stateCount scope) : T.Settles (.not f) env :=
  hf.unary (f := .not f) hvalid henv _ (fun _ => rfl) fun _ => rfl

theorem Settles.and (hf : T.Settles f env) (hg : T.Settles g env)
    (hvalid : (Formula.and f g).validate M scope = .ok ()) (henv : env.Binds M.stateCount scope) :
    T.Settles (.and f g) env :=
  hf.binary hvalid henv hg _ (fun _ => rfl) fun _ => rfl

theorem Settles.or (hf : T.Settles f env) (hg : T.Settles g env)
    (hvalid : (Formula.or f g).validate M scope = .ok ()) (henv : env.Binds M.stateCount scope) :
    T.Settles (.or f g) env :=
  hf.binary hvalid henv hg _ (fun _ => rfl) fun _ => rfl

/-- A formula that is computed as another one. -/
theorem Settles.of_root (h : T.Settles f.root env)
    (heval : ∀ i, (T.ctx i).eval f env = ColoredCtl.share f ((T.ctx i).eval f.root env))
    (hapart : ∀ i, (T.ctx i).evalApart f env = (T.ctx i).evalApart f.root env)
    (hholds : ∀ c s, f.root.Holds (S c) env s ↔ f.Holds (S c) env s) : T.Settles f env := by
  obtain ⟨m, hshows, hm⟩ := h
  rw [extent_eq hholds] at hshows
  simp only [← hapart] at hm
  refine ⟨m, hshows, ?_⟩
  simp only [heval]
  exact hm.share

/-- What is evaluated under a name can be evaluated without kept maps. -/
theorem Settles.replaces (h : T.Settles f env) :
    Replaces (T.Round .tell) (fun i => ((T.ctx i).eval f env).run' {}) fun i => (T.ctx i).evalApart f env := by
  obtain ⟨m, _, hm⟩ := h
  obtain ⟨_, _, hrun⟩ := hm.run _ (T.coherent_empty env)
  exact .of_yields (T.determined _) (hrun.map_result Prod.fst) hm.yields

end Connectives

/-- The workers come to the same maps for a formula whose names are in scope and whose atoms the model knows,
with kept maps and without. -/
theorem eval_settles (f : Formula) {env : Env} {scope : List String} (hvalid : f.validate M scope = .ok ())
    (henv : env.Binds M.stateCount scope) : T.Settles f env := by
  induction f generalizing env scope with
  | top => exact settles_leaf hvalid henv (fun _ => rfl) fun _ => rfl
  | bottom => exact settles_leaf hvalid henv (fun _ => rfl) fun _ => rfl
  | atom a => exact settles_leaf hvalid henv (fun _ => rfl) fun _ => rfl
  | reference name => exact settles_leaf hvalid henv (fun _ => rfl) fun _ => rfl
  | not f ih => exact (ih hvalid henv).not hvalid henv
  | and f g ihf ihg =>
    obtain ⟨_, hf, hg⟩ := bind_eq_ok_iff.1 hvalid
    exact (ihf hf henv).and (ihg hg henv) hvalid henv
  | or f g ihf ihg =>
    obtain ⟨_, hf, hg⟩ := bind_eq_ok_iff.1 hvalid
    exact (ihf hf henv).or (ihg hg henv) hvalid henv
  | implies f g ihf ihg =>
    obtain ⟨_, hf, hg⟩ := bind_eq_ok_iff.1 hvalid
    have hor := ((ihf hf henv).not hf henv).or (ihg hg henv) hvalid henv
    refine Settles.of_root hor (fun _ => rfl) (fun _ => rfl) ?_
    intro c s
    simp only [Formula.root, Formula.Holds]
    tauto
  | equal f g ihf ihg =>
    obtain ⟨_, hf, hg⟩ := bind_eq_ok_iff.1 hvalid
    have hand := (ihf hf henv).and (ihg hg henv) hvalid henv
    have hnand := ((ihf hf henv).not hf henv).and ((ihg hg henv).not hg henv) hvalid henv
    have hboth : (Formula.equal f g).root.validate M scope = .ok () := bind_eq_ok_iff.2 ⟨(), hvalid, hvalid⟩
    refine Settles.of_root (hand.or hnand hboth henv) (fun _ => rfl) (fun _ => rfl) ?_
    intro c s
    simp only [Formula.root, Formula.Holds]
    tauto
  | next quantifier course f ih =>
    cases quantifier with
    | some =>
      exact (ih hvalid henv).unary hvalid henv (fun i => Next.someStep (T.ctx i) course) (fun _ => rfl) fun _ => rfl
    | all =>
      exact (ih hvalid henv).unary hvalid henv (fun i => Next.everyStep (T.ctx i) course) (fun _ => rfl) fun _ => rfl
  | hold quantifier weak course f g ihf ihg =>
    obtain ⟨_, hf, hg⟩ := bind_eq_ok_iff.1 hvalid
    cases quantifier with
    | some =>
      exact (ihf hf henv).binary hvalid henv (ihg hg henv)
        (fun i => Until.somePath (T.ctx i) weak course) (fun _ => rfl) fun _ => rfl
    | all =>
      exact (ihf hf henv).binary hvalid henv (ihg hg henv)
        (fun i => Until.everyPath (T.ctx i) weak course) (fun _ => rfl) fun _ => rfl
  | bind name f ih =>
    have hbody := T.bind_replaces fun v hv => (ih hvalid (henv.cons name hv)).replaces
    exact (Agrees.done fun _ => ()).settles hvalid henv
      (fun i _ => FirstOrder.bind (T.ctx i) fun v => ((T.ctx i).eval f ((name, v) :: env)).run' {})
      (fun i _ => FirstOrder.bind (T.ctx i) fun v => (T.ctx i).evalApart f ((name, v) :: env))
      (fun _ hr => hbody.yields hr) (fun _ => rfl) fun _ => rfl
  | jump name f ih =>
    obtain ⟨_, hname, hf⟩ := bind_eq_ok_iff.1 hvalid
    obtain ⟨v, hv, _⟩ := resolve_spec hname henv
    refine (ih hf henv).unary hvalid henv (fun i => FirstOrder.jump (T.ctx i) v) ?_ ?_
    · intro i
      rw [Context.eval, hv]
      rfl
    · intro i
      rw [Context.evalApart, hv]
      rfl
  | forAll name bound f ihb ihf =>
    obtain ⟨_, hb, hf⟩ := bind_eq_ok_iff.1 hvalid
    obtain ⟨m, hshows, hm⟩ := ihb hb henv
    have hbody := T.forAll_replaces (fun v hv => (ihf hf (henv.cons name hv)).replaces) hshows
    exact hm.settles hvalid henv _ _ (fun _ hr => hbody.yields hr) (fun _ => rfl) fun _ => rfl
  | forSome name bound f ihb ihf =>
    obtain ⟨_, hb, hf⟩ := bind_eq_ok_iff.1 hvalid
    obtain ⟨m, hshows, hm⟩ := ihb hb henv
    have hbody := T.forSome_replaces (fun v hv => (ihf hf (henv.cons name hv)).replaces) hshows
    exact hm.settles hvalid henv _ _ (fun _ hr => hbody.yields hr) (fun _ => rfl) fun _ => rfl

end Team

/-- A formula with all implications and equivalences in it written as they are computed. -/
def Formula.lower : Formula → Formula
  | .not f => .not f.lower
  | .and f g => .and f.lower g.lower
  | .or f g => .or f.lower g.lower
  | .implies f g => .or (.not f.lower) g.lower
  | .equal f g => .or (.and f.lower g.lower) (.and (.not f.lower) (.not g.lower))
  | .next quantifier course f => .next quantifier course f.lower
  | .hold quantifier weak course f g => .hold quantifier weak course f.lower g.lower
  | .bind name f => .bind name f.lower
  | .jump name f => .jump name f.lower
  | .forAll name bound f => .forAll name bound.lower f.lower
  | .forSome name bound f => .forSome name bound.lower f.lower
  | f => f

theorem Formula.lower_root (f : Formula) : f.root.lower = f.lower := by
  cases f <;> rfl

/-- Formulas that differ only in the bits of a threshold, which may stand for the same number; in a name and a
constant, which may be written alike; or in self-loops and moves along a dimension. -/
inductive Formula.Lookalike : Formula → Formula → Prop
  | threshold (name : String) (comparison : Comparison) {t t' : Binary64} (h : t.bits ≠ t'.bits) :
      Lookalike (.atom (.float name comparison t)) (.atom (.float name comparison t'))
  | top (name : String) : Lookalike (.reference name) .top
  | bottom (name : String) : Lookalike (.reference name) .bottom
  | next (quantifier : PathQuantifier) (forward : Bool) (name : String) (facet : Option Facet) (f : Formula) :
      Lookalike (.next quantifier ⟨.loop, forward⟩ f) (.next quantifier ⟨.along name facet, forward⟩ f)
  | hold (quantifier : PathQuantifier) (weak forward : Bool) (name : String) (facet : Option Facet)
      (f g : Formula) : Lookalike (.hold quantifier weak ⟨.loop, forward⟩ f g)
        (.hold quantifier weak ⟨.along name facet, forward⟩ f g)

theorem Formula.Lookalike.lower_ne {f g : Formula} (h : f.Lookalike g) : f.lower ≠ g.lower := by
  cases h with
  | threshold name comparison h =>
    intro heq
    cases heq
    exact h rfl
  | top | bottom | next | hold => simp [Formula.lower]

namespace Graph

/-- Graphs to which the operators of formulas are added, one formula after the other. -/
inductive Made (ctx : Context C) : Graph C → Prop
  | empty : Made ctx {}
  | compile {graph : Graph C} (h : Made ctx graph) (f : Formula) (env : Env) :
      Made ctx ((ctx.compile f env).run graph).2

theorem Made.sound {ctx : Context C} {graph : Graph C} (h : Made ctx graph) : graph.Sound := by
  induction h with
  | empty => exact .empty
  | compile _ f env ih => exact (ctx.compile_files f env _ ih).1.sound

/-- Operators are shared by formulas that are computed in the same way with the same states for names, and by
no others. -/
structure Exact (ctx : Context C) (graph : Graph C) : Prop where
  /-- The operator that is made for a formula is the one that is found for it. -/
  find?_compile : ∀ f env,
    ((ctx.compile f env).run graph).2.find? f env = some ((ctx.compile f env).run graph).1
  /-- An operator is computed from the operators of the formulas that its formula is computed from. -/
  operands_eq : ∀ {f env op}, graph.find? f env = some op →
    (f.root.operands env).map (graph.find? · env) = op.operands.map some
  id_eq_iff : ∀ {f g env e op op'}, graph.find? f env = some op → graph.find? g e = some op' →
    (op.id = op'.id ↔ env = e ∧ f.root = g.root)
  lower_eq : ∀ {f g env e op op'}, graph.find? f env = some op → graph.find? g e = some op' →
    op.id = op'.id → f.lower = g.lower
  id_ne_of_lookalike : ∀ {f g env e op op'}, f.Lookalike g → graph.find? f env = some op →
    graph.find? g e = some op' → op.id ≠ op'.id

theorem Made.exact {ctx : Context C} {graph : Graph C} (h : Made ctx graph) : Exact ctx graph := by
  have hlower {f g : Formula} {env e : Env} {op op' : Operator C} (hop : graph.find? f env = some op)
      (hop' : graph.find? g e = some op') (heq : op.id = op'.id) : f.lower = g.lower := by
    rw [← f.lower_root, (h.sound.eq_of_id hop hop' heq).2, g.lower_root]
  exact {
    find?_compile := fun f env => (ctx.compile_files f env graph h.sound).2
    operands_eq := h.sound.operands_eq
    id_eq_iff := h.sound.id_eq_iff
    lower_eq := hlower
    id_ne_of_lookalike := fun hlook hop hop' heq => hlook.lower_ne (hlower hop hop' heq) }

end Graph

namespace Checker

/-- The worker of a partition that makes the graph of a formula and computes it. -/
def graphEvaluator (c : Checker C) (f : Formula) (env : Env) (p : Partition) : Worker C (StateMap C) := do
  let ctx ← Context.make c.algebra c.model p
  ((ctx.compile f env).run {}).1.compute.run' {}

/-- The worker of a partition that computes each formula wherever it stands. -/
def apartEvaluator (c : Checker C) (f : Formula) (env : Env) (p : Partition) : Worker C (StateMap C) := do
  let ctx ← Context.make c.algebra c.model p
  ctx.evalApart f env

theorem evaluator_eq_graphEvaluator (c : Checker C) (f : Formula) (env : Env) :
    c.evaluator f env = c.graphEvaluator f env :=
  funext fun _ => bind_congr fun ctx => ctx.eval_run'_eq f env

/-- The workers come to the same maps by the graph of a formula as without shared operators, and operators are
shared by formulas that are computed in the same way only. -/
structure Transparent (c : Checker C) (R : Reading c.algebra) (partitions : List Partition) (f : Formula)
    (env : Env) (maps : Fin c.config.partitions → StateMap C) : Prop where
  graph : c.Finishes R partitions (c.graphEvaluator f env) maps
  apart : c.Finishes R partitions (c.apartEvaluator f env) maps
  evaluator_eq : c.evaluator f env = c.graphEvaluator f env
  exact_of_made : ∀ (ctx : Context C) (graph : Graph C), Graph.Made ctx graph → graph.Exact ctx

/-- Maps that are kept do not show in the maps that the workers come to. -/
theorem exists_transparent (c : Checker C) {R : Reading c.algebra} {S : Nat → Kripke}
    (hserves : c.model.Serves R S) (hcodes : c.algebra.Codes R.InDomain ∨ c.algebra.Garbles R.InDomain)
    (hcount : 0 < c.config.partitions) {partitions : List Partition}
    (hall : Partition.all c.config.strategy c.config.partitions c.model.stateCount = .ok partitions)
    {f : Formula} {env : Env} {scope : List String} (hvalid : f.validate c.model scope = .ok ())
    (henv : env.Binds c.model.stateCount scope) : ∃ maps, c.Transparent R partitions f env maps := by
  obtain ⟨T, howner, hmake, _⟩ := c.exists_team hserves hcount hall
  obtain ⟨maps, _, hagrees⟩ := T.eval_settles f hvalid henv
  obtain ⟨_, _, hrun⟩ := hagrees.run _ (T.coherent_empty env)
  have hgraph : Crew.Yields (T.Round .tell) (fun i => c.graphEvaluator f env
      (Partition.nth c.config.strategy c.config.partitions c.model.stateCount i)) maps := by
    simp only [← c.evaluator_eq_graphEvaluator, evaluator, hmake]
    exact hrun.map_result Prod.fst
  have hapart : Crew.Yields (T.Round .tell) (fun i => c.apartEvaluator f env
      (Partition.nth c.config.strategy c.config.partitions c.model.stateCount i)) maps := by
    simp only [apartEvaluator, hmake]
    exact hagrees.yields
  exact ⟨maps, finishes_of_yields howner hcodes hcount hall hgraph,
    finishes_of_yields howner hcodes hcount hall hapart, c.evaluator_eq_graphEvaluator f env,
    fun _ _ hmade => hmade.exact⟩

variable {domain : Domain} {b : ExplicitModel.Builder domain.Value} {M : ExplicitModel domain.Value}
  {config : Config} {partitions : List Partition} {f : Formula} {env : Env} {scope : List String}

/-- For any states that its names stand for, the maps of a formula do not depend on whether its operators are
shared. -/
theorem sharing_transparent (hbuild : b.build = .ok M)
    (hbounds : ∀ e ∈ M.edges, domain.reading.InDomain e.bound) (hcount : 0 < config.partitions)
    (hall : Partition.all config.strategy config.partitions M.stateCount = .ok partitions)
    (hvalid : f.validate (M.toModel domain.algebra) scope = .ok ()) (henv : env.Binds M.stateCount scope) :
    ∃ maps, (domain.checker M config).Transparent domain.reading partitions f env maps :=
  exists_transparent (domain.checker M config)
    ((ExplicitModel.proper_of_build hbuild).serves (R := domain.reading) hbounds)
    domain.codes_or_garbles hcount hall hvalid henv

/-- Two states with a step there for all colors and a step back for one of them, each with a worker of its
own, and a formula with a name that is written like a constant. -/
theorem sharing_transparent_return : ∃ (M : ExplicitModel ColorSet) (partitions : List Partition),
    ExplicitModel.Builder.build ⟨2,
        #[⟨0, 1, .move "x" .up, .full 3⟩, ⟨1, 0, .move "x" .down, .full 1⟩], [], none⟩ = .ok M ∧
      (∀ e ∈ M.edges, e.bound.InDomain 3) ∧
      Partition.all .hash 2 M.stateCount = .ok partitions ∧
      (Formula.equal .top (.next .some {} (.reference "true"))).validate (M.toModel (.explicit 3)) ["true"] =
        .ok () ∧
      Env.Binds [("true", 1)] M.stateCount ["true"] ∧
      ∃ maps, Transparent ⟨.explicit 3, M.toModel (.explicit 3),
        { partitions := 2, strategy := .hash, transport := .serialized }⟩ (Reading.explicit 3) partitions
        (.equal .top (.next .some {} (.reference "true"))) [("true", 1)] maps := by
  have henv : Env.Binds [("true", 1)] 2 ["true"] := (Env.binds_nil [] 2).cons "true" (by decide)
  exact ⟨_, _, rfl, inDomain_there_and_back, rfl, rfl, henv,
    @sharing_transparent (.explicit 3) ⟨2,
      #[⟨0, 1, .move "x" .up, .full 3⟩, ⟨1, 0, .move "x" .down, .full 1⟩], [], none⟩ _
      { partitions := 2, strategy := .hash, transport := .serialized } _ _ _ ["true"] rfl inDomain_there_and_back
      (by decide) rfl rfl henv⟩

end Checker

end ColoredCtl

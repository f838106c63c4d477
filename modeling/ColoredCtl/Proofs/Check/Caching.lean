import ColoredCtl.Proofs.Check.Graph

/-!
Computing the graph of a formula is evaluating the formula.

Evaluation keeps maps by formula, the computation of a graph keeps them by operator number. Both go through a
formula in the same order, and keep maps for the same formulas; so they are the same worker.
-/

namespace ColoredCtl

variable {C α β γ : Type}

namespace Worker

/-- The workers send the same in all rounds, fail for the same causes, and come to results that belong
together. -/
inductive Alike (Q : α → β → Prop) : Worker C α → Worker C β → Prop
  | done {a : α} {b : β} (h : Q a b) : Alike Q (.done a) (.done b)
  | fail (cause : Failure CheckError) : Alike Q (.fail cause) (.fail cause)
  | meet (out : Outgoing C) {resume : Incoming C → Worker C α} {resume' : Incoming C → Worker C β}
      (h : ∀ incoming, Alike Q (resume incoming) (resume' incoming)) :
      Alike Q (.meet out resume) (.meet out resume')

namespace Alike

theorem refl (w : Worker C α) : Alike (· = ·) w w := by
  induction w with
  | done a => exact .done rfl
  | fail cause => exact .fail cause
  | meet out resume ih => exact .meet out ih

theorem bind {Q : α → β → Prop} {α' β' : Type} {Q' : α' → β' → Prop} {w : Worker C α} {v : Worker C β}
    {f : α → Worker C α'} {g : β → Worker C β'} (h : Alike Q w v)
    (hfg : ∀ a b, Q a b → Alike Q' (f a) (g b)) :
    Alike Q' (w >>= f) (v >>= g) := by
  induction h with
  | done h => exact hfg _ _ h
  | fail cause => exact .fail cause
  | meet out _ ih => exact .meet out ih

theorem imp {Q Q' : α → β → Prop} {w : Worker C α} {v : Worker C β} (h : Alike Q w v)
    (hQ : ∀ a b, Q a b → Q' a b) : Alike Q' w v := by
  induction h with
  | done h => exact .done (hQ _ _ h)
  | fail cause => exact .fail cause
  | meet out _ ih => exact .meet out ih

theorem map_eq {p : α → γ} {q : β → γ} {w : Worker C α} {v : Worker C β}
    (h : Alike (fun a b => p a = q b) w v) : p <$> w = q <$> v := by
  induction h with
  | done h => exact congrArg Worker.done h
  | fail cause => rfl
  | meet out _ ih => exact congrArg (Worker.meet out) (funext ih)

end Alike

end Worker

namespace Operator

/-- A map that is kept is not computed again. -/
theorem run_compute_of_known {op : Operator C} {cache : Cache C} {m : StateMap C} (h : cache[op.id]? = some m) :
    op.compute.run cache = pure (m, cache) := by
  have hknown (x : StateT (Cache C) (Worker C) (StateMap C)) : (once op.id x).run cache = pure (m, cache) := by
    simp only [once, StateT.run_bind, StateT.run_get, pure_bind, h]
    rfl
  cases op <;> exact hknown _

theorem run_once_of_unknown {id : Nat} {cache : Cache C} (h : cache[id]? = none)
    (x : StateT (Cache C) (Worker C) (StateMap C)) :
    (once id x).run cache = x.run cache >>= fun r => pure (r.1, r.2.insert id r.1) := by
  simp only [once, StateT.run_bind, StateT.run_get, pure_bind, h]
  rfl

end Operator

theorem run_share_of_known {f : Formula} {memo : Memo C} {m : StateMap C} (h : memo.find? f = some m)
    (x : Shared C (StateMap C)) : (share f x).run memo = pure (m, memo) := by
  simp only [share, StateT.run_bind, StateT.run_get, pure_bind, h]
  rfl

theorem run_share_of_unknown {f : Formula} {memo : Memo C} (h : memo.find? f = none)
    (x : Shared C (StateMap C)) :
    (share f x).run memo = x.run memo >>= fun r => pure (r.1, r.2.insert f r.1) := by
  simp only [share, StateT.run_bind, StateT.run_get, pure_bind, h]
  rfl

namespace Graph

open Operator

variable {graph : Graph C} {memo : Memo C} {cache : Cache C} {env : Env} {f : Formula} {op : Operator C}
  {m : StateMap C}

/-- The same maps are kept for the formulas as for their operators. -/
structure Mirrors (env : Env) (graph : Graph C) (memo : Memo C) (cache : Cache C) : Prop where
  sound : graph.Sound
  fresh : ∀ id, graph.count ≤ id → cache[id]? = none
  same : ∀ f, graph.find? f env = none ∧ memo.find? f = none ∨
    ∃ op m, graph.find? f env = some op ∧ cache[op.id]? = some m ∧ memo.find? f = some m

namespace Mirrors

theorem empty (env : Env) : Mirrors env ({} : Graph C) {} {} where
  sound := .empty
  fresh := by simp
  same := by simp [find?]

/-- An operator that is computed when its formula is. -/
theorem file_new (h : Mirrors env graph memo cache) (hid : op.id = graph.count)
    (hsound : (Graph.file { graph with count := graph.count + 1 } f env op).Sound) (m : StateMap C) :
    Mirrors env (Graph.file { graph with count := graph.count + 1 } f env op) (memo.insert f m)
      (cache.insert op.id m) where
  sound := hsound
  fresh id hle := by
    have hlt : graph.count < id := hle
    rw [Std.TreeMap.getElem?_insert, if_neg, h.fresh id (Nat.le_of_lt hlt)]
    simp only [hid, Nat.compare_eq_eq]
    omega
  same g := by
    by_cases heq : g = f
    · exact .inr ⟨op, m, by simp [find?_file, heq], by simp, by simp [Memo.find?_insert, heq]⟩
    · rw [find?_file_of_ne heq, Memo.find?_insert, if_neg heq]
      refine (h.same g).imp_right ?_
      rintro ⟨op', k, hop', hk, hmemo⟩
      refine ⟨op', k, hop', ?_, hmemo⟩
      have hlt := h.sound.id_lt hop'
      rw [Std.TreeMap.getElem?_insert, if_neg, hk]
      simp only [hid, Nat.compare_eq_eq]
      omega

/-- A formula that is filed with an operator that has been computed. -/
theorem file_root (h : Mirrors env graph memo cache) (hop : cache[op.id]? = some m)
    (hsound : (graph.file f env op).Sound) : Mirrors env (graph.file f env op) (memo.insert f m) cache where
  sound := hsound
  fresh := h.fresh
  same g := by
    by_cases heq : g = f
    · exact .inr ⟨op, m, by simp [find?_file, heq], hop, by simp [Memo.find?_insert, heq]⟩
    · rw [find?_file_of_ne heq, Memo.find?_insert, if_neg heq]
      exact h.same g

end Mirrors

/-- A computation that keeps maps by formula, and one by operators that are made for it. -/
def Follows (env : Env) (x : Shared C α) (build : StateM (Graph C) β)
    (y : β → StateT (Cache C) (Worker C) α) : Prop :=
  ∀ graph memo cache, Mirrors env graph memo cache →
    Worker.Alike (fun r s => r.1 = s.1 ∧ Mirrors env (build.run graph).2 r.2 s.2) (x.run memo)
      ((y (build.run graph).1).run cache)

/-- The evaluation of a formula, and the computation of its operator. -/
structure Tracks (f : Formula) (env : Env) (x : Shared C (StateMap C)) (build : StateM (Graph C) (Operator C)) :
    Prop where
  files : Files f env build
  alike : ∀ graph memo cache, Mirrors env graph memo cache →
    Worker.Alike (fun r s => r.1 = s.1 ∧ r.2.find? f = some r.1 ∧ Mirrors env (build.run graph).2 r.2 s.2)
      (x.run memo) ((build.run graph).1.compute.run cache)

theorem Tracks.follows {x : Shared C (StateMap C)} {build : StateM (Graph C) (Operator C)}
    (h : Tracks f env x build) : Follows env x build compute := by
  intro graph memo cache hmirrors
  exact (h.alike graph memo cache hmirrors).imp fun r s hr => ⟨hr.1, hr.2.2⟩

theorem follows_pure (env : Env) (a : α) (b : β) :
    Follows (C := C) env (pure a) (pure b) fun _ => pure a :=
  fun _ _ _ h => .done ⟨rfl, h⟩

theorem Follows.pair {α' β' : Type} {x : Shared C α} {build : StateM (Graph C) β}
    {y : β → StateT (Cache C) (Worker C) α} {x' : Shared C α'} {build' : StateM (Graph C) β'}
    {y' : β' → StateT (Cache C) (Worker C) α'} (h : Follows env x build y) (h' : Follows env x' build' y') :
    Follows env (do return (← x, ← x')) (do return (← build, ← build'))
      fun b => do return (← y b.1, ← y' b.2) := by
  intro graph memo cache hmirrors
  simp only [StateT.run_bind]
  refine (h graph memo cache hmirrors).bind fun r s hr => ?_
  refine (h' _ _ _ hr.2).bind fun r' s' hr' => ?_
  exact .done ⟨Prod.ext hr.1 hr'.1, hr'.2⟩

/-- An operator is computed from its operands as its formula is. -/
theorem tracks_node {size : Nat} {fs : List Formula} {operands : StateM (Graph C) β}
    {ops : β → List (Operator C)} {make : β → Nat → Operator C} {x : Shared C α}
    {y : β → StateT (Cache C) (Worker C) α} (body : α → Worker C (StateMap C))
    (hfollows : Follows env x operands y) (hoperands : Builds size fs env operands ops)
    (hfiles : Files f env (node f env operands make)) (hid : ∀ b id, (make b id).id = id)
    (hcompute : ∀ b id, (make b id).compute = once id (y b >>= fun a => liftM (body a))) :
    Tracks f env (ColoredCtl.share f (x >>= fun a => liftM (body a))) (node f env operands make) := by
  refine ⟨hfiles, fun graph memo cache hmirrors => ?_⟩
  rcases hmirrors.same f with ⟨hfind, hmemo⟩ | ⟨op, m, hop, hcache, hmemo⟩
  · have hsound := (hfiles graph hmirrors.sound).1.sound
    have hcount := (hoperands graph hmirrors.sound).1.count_le
    have hbefore := hfollows graph memo cache hmirrors
    rcases hrun : operands.run graph with ⟨b, larger⟩
    rw [hrun] at hcount hbefore
    rw [node_of_unknown hfind hrun] at hsound ⊢
    -- The number of the operator is new, so no map is kept under it.
    rw [run_share_of_unknown hmemo, hcompute, run_once_of_unknown (hmirrors.fresh _ hcount), StateT.run_bind,
      StateT.run_bind, bind_assoc, bind_assoc]
    refine hbefore.bind fun r s hr => ?_
    rw [hr.1]
    refine Worker.Alike.bind (Q := fun p q => p.1 = q.1 ∧ p.2 = r.2 ∧ q.2 = s.2) ?_ ?_
    · exact (Worker.Alike.refl (body s.1)).bind fun m k heq => .done ⟨heq, rfl, rfl⟩
    · rintro ⟨m, _⟩ ⟨_, _⟩ ⟨rfl, rfl, rfl⟩
      refine .done ⟨rfl, by simp [Memo.find?_insert], ?_⟩
      have hkept := hr.2.file_new (hid b larger.count) hsound m
      rwa [hid] at hkept
  · rw [node, share_of_known hop, run_share_of_known hmemo]
    exact run_compute_of_known hcache ▸ .done ⟨rfl, hmemo, hmirrors⟩

/-- An operator without operands. -/
theorem tracks_leaf {make : Unit → Nat → Operator C} {body : Worker C (StateMap C)}
    (hfiles : Files f env (node f env (pure ()) make)) (hid : ∀ b id, (make b id).id = id)
    (hcompute : ∀ b id, (make b id).compute = once id (liftM body)) :
    Tracks f env (ColoredCtl.share f (liftM body)) (node f env (pure ()) make) :=
  tracks_node (fun _ => body) (follows_pure env () ()) (builds_pure () 0 env) hfiles hid hcompute

/-- An operator with two operands. -/
theorem tracks_binary {g h : Formula} {v w : Shared C (StateMap C)} {x y : StateM (Graph C) (Operator C)}
    {body : StateMap C → StateMap C → Worker C (StateMap C)} (hx : Tracks g env v x) (hy : Tracks h env w y)
    (hfiles : Files f env (node f env (do return (← x, ← y)) fun ops id => binary id ops.1 ops.2 body)) :
    Tracks f env (ColoredCtl.share f do
        let m ← v
        let k ← w
        liftM (body m k))
      (node f env (do return (← x, ← y)) fun ops id => binary id ops.1 ops.2 body) := by
  have hnode := tracks_node (fun p => body p.1 p.2) (hx.follows.pair hy.follows)
    (hx.files.builds.pair hy.files.builds) hfiles (fun _ _ => rfl) fun ops id => by
      simp only [compute, bind_assoc, pure_bind]
  simpa only [bind_assoc, pure_bind] using hnode

/-- A formula that is computed as another one has the map of that one. -/
theorem tracks_share {build : StateM (Graph C) (Operator C)} {x : Shared C (StateMap C)}
    (hroot : Tracks f.root env x build) (hfiles : Files f env (share f env build)) :
    Tracks f env (ColoredCtl.share f x) (share f env build) := by
  refine ⟨hfiles, fun graph memo cache hmirrors => ?_⟩
  rcases hmirrors.same f with ⟨hfind, hmemo⟩ | ⟨op, m, hop, hcache, hmemo⟩
  · have hsound := (hfiles graph hmirrors.sound).1.sound
    have hop := (hroot.files graph hmirrors.sound).2
    have hbefore := hroot.alike graph memo cache hmirrors
    rw [share_of_unknown hfind] at hsound ⊢
    rw [run_share_of_unknown hmemo, ← bind_pure ((build.run graph).1.compute.run cache)]
    refine hbefore.bind fun r s hr => .done ⟨hr.1, by simp [Memo.find?_insert], ?_⟩
    refine hr.2.2.file_root ?_ hsound
    rcases hr.2.2.same f.root with ⟨hnone, _⟩ | ⟨op', m, hop', hcache, hmemo'⟩
    · rw [hop] at hnone
      cases hnone
    · cases hop.symm.trans hop'
      rw [hcache, ← hmemo', hr.2.1]
  · rw [share_of_known hop, run_share_of_known hmemo]
    exact run_compute_of_known hcache ▸ .done ⟨rfl, hmemo, hmirrors⟩

/-- The graph of a formula is computed as the formula is evaluated, when both start with nothing. -/
theorem Tracks.run'_eq {x : Shared C (StateMap C)} {build : StateM (Graph C) (Operator C)}
    (h : Tracks f env x build) : x.run' {} = (build.run {}).1.compute.run' {} :=
  ((h.alike {} {} {} (.empty env)).imp fun _ _ hr => hr.1).map_eq

end Graph

namespace Context

open ColoredCtl.Graph Operator

variable {f g : Formula} {env : Env} {v w : Shared C (StateMap C)} {x y : StateM (Graph C) (Operator C)}
  (ctx : Context C)

theorem compileNot_tracks (hx : Tracks f env v x) :
    Tracks (.not f) env (ctx.evalNot f v) (ctx.compileNot f env x) :=
  tracks_node _ hx.follows hx.files.builds (ctx.compileNot_files hx.files) (fun _ _ => rfl) fun _ _ => rfl

theorem compileAnd_tracks (hx : Tracks f env v x) (hy : Tracks g env w y) :
    Tracks (.and f g) env (evalAnd f g v w) (compileAnd f g env x y) :=
  tracks_binary hx hy (compileAnd_files hx.files hy.files)

theorem compileOr_tracks (hx : Tracks f env v x) (hy : Tracks g env w y) :
    Tracks (.or f g) env (evalOr f g v w) (compileOr f g env x y) :=
  tracks_binary hx hy (compileOr_files hx.files hy.files)

/-- What stands under a name is evaluated as graphs of its own are computed. -/
theorem eval_under_eq (h : ∀ env, Tracks f env (ctx.eval f env) (ctx.compile f env)) (name : String)
    (env : Env) :
    (fun state => (ctx.eval f ((name, state) :: env)).run' {}) =
      fun state => ((ctx.compile f ((name, state) :: env)).run {}).1.compute.run' {} :=
  funext fun state => (h ((name, state) :: env)).run'_eq

/-- A formula is evaluated as its operator is computed. -/
theorem compile_tracks (f : Formula) (env : Env) : Tracks f env (ctx.eval f env) (ctx.compile f env) := by
  induction f generalizing env with
  | top => exact tracks_leaf (ctx.compile_files .top env) (fun _ _ => rfl) fun _ _ => rfl
  | bottom => exact tracks_leaf (ctx.compile_files .bottom env) (fun _ _ => rfl) fun _ _ => rfl
  | atom a => exact tracks_leaf (ctx.compile_files (.atom a) env) (fun _ _ => rfl) fun _ _ => rfl
  | reference name => exact tracks_leaf (ctx.compile_files (.reference name) env) (fun _ _ => rfl) fun _ _ => rfl
  | not f ih => exact ctx.compileNot_tracks (ih env)
  | and f g ihf ihg => exact compileAnd_tracks (ihf env) (ihg env)
  | or f g ihf ihg => exact compileOr_tracks (ihf env) (ihg env)
  | implies f g ihf ihg =>
    exact tracks_share (compileOr_tracks (ctx.compileNot_tracks (ihf env)) (ihg env))
      (ctx.compile_files (.implies f g) env)
  | equal f g ihf ihg =>
    exact tracks_share (compileOr_tracks (compileAnd_tracks (ihf env) (ihg env))
      (compileAnd_tracks (ctx.compileNot_tracks (ihf env)) (ctx.compileNot_tracks (ihg env))))
      (ctx.compile_files (.equal f g) env)
  | next quantifier course f ih =>
    have hnode := tracks_node _ (ih env).follows (ih env).files.builds
      (ctx.compile_files (.next quantifier course f) env) (fun _ _ => rfl) fun _ _ => rfl
    cases quantifier <;> exact hnode
  | hold quantifier weak course f g ihf ihg =>
    have hnode := tracks_binary (ihf env) (ihg env) (ctx.compile_files (.hold quantifier weak course f g) env)
    cases quantifier <;> exact hnode
  | bind name f ih =>
    rw [eval, ctx.eval_under_eq ih]
    exact tracks_leaf (ctx.compile_files (.bind name f) env) (fun _ _ => rfl) fun _ _ => rfl
  | jump name f ih =>
    have hfiles := ctx.compile_files (.jump name f) env
    rw [compile] at hfiles ⊢
    rw [eval]
    cases hresolve : resolve env name with
    | ok state =>
      rw [hresolve] at hfiles
      exact tracks_node _ (ih env).follows (ih env).files.builds hfiles (fun _ _ => rfl) fun _ _ => rfl
    | error cause =>
      rw [hresolve] at hfiles
      exact tracks_leaf hfiles (fun _ _ => rfl) fun _ _ => rfl
  | forAll name bound f ihb ihf =>
    rw [eval, ctx.eval_under_eq ihf]
    exact tracks_node _ (ihb env).follows (ihb env).files.builds (ctx.compile_files (.forAll name bound f) env)
      (fun _ _ => rfl) fun _ _ => rfl
  | forSome name bound f ihb ihf =>
    rw [eval, ctx.eval_under_eq ihf]
    exact tracks_node _ (ihb env).follows (ihb env).files.builds (ctx.compile_files (.forSome name bound f) env)
      (fun _ _ => rfl) fun _ _ => rfl

/-- To evaluate a formula is to compute its graph. -/
theorem eval_run'_eq (f : Formula) (env : Env) :
    (ctx.eval f env).run' {} = ((ctx.compile f env).run {}).1.compute.run' {} :=
  (ctx.compile_tracks f env).run'_eq

end Context

end ColoredCtl

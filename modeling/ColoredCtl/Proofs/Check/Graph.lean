import ColoredCtl.Check.Evaluate

/-!
Formulas as graphs of operators.

The graph of a formula has one operator for each formula in it, under the same names: where an equal formula
stands again, the operator made for it is used again. An implication has the operator of the disjunction that
it is computed as, and an equivalence that of its disjunction of conjunctions. An operator is computed at most
once, after its operands; its map is kept under its number.
-/

namespace ColoredCtl

variable {C α β : Type}

/-- An operator with its number, its operands, and the way its map is computed from theirs. What stands under a
name is computed for each state by the operator of a graph of its own. -/
inductive Operator (C : Type) where
  | leaf (id : Nat) (body : Worker C (StateMap C))
  | unary (id : Nat) (operand : Operator C) (body : StateMap C → Worker C (StateMap C))
  | binary (id : Nat) (left right : Operator C) (body : StateMap C → StateMap C → Worker C (StateMap C))
  | each (id : Nat) (inner : Nat → Operator C)
      (body : (Nat → Worker C (StateMap C)) → Worker C (StateMap C))
  | among (id : Nat) (bound : Operator C) (inner : Nat → Operator C)
      (body : StateMap C → (Nat → Worker C (StateMap C)) → Worker C (StateMap C))

namespace Operator

def id : Operator C → Nat
  | leaf id _ | unary id _ _ | binary id _ _ _ | each id _ _ | among id _ _ _ => id

/-- The operators of the same graph that an operator is computed from. -/
def operands : Operator C → List (Operator C)
  | leaf _ _ | each _ _ _ => []
  | unary _ operand _ | among _ operand _ _ => [operand]
  | binary _ left right _ => [left, right]

/-- The maps of the operators computed so far, by number. -/
abbrev Cache (C : Type) := Std.TreeMap Nat (StateMap C)

/-- The map of an operator that was computed before, or else a computed map, which is kept. -/
def once (id : Nat) (compute : StateT (Cache C) (Worker C) (StateMap C)) :
    StateT (Cache C) (Worker C) (StateMap C) := do
  match (← get)[id]? with
  | some m => return m
  | none =>
    let m ← compute
    modify (·.insert id m)
    return m

/-- The map of an operator. -/
def compute : Operator C → StateT (Cache C) (Worker C) (StateMap C)
  | leaf id body => once id (liftM body)
  | unary id operand body => once id do
    let m ← operand.compute
    liftM (body m)
  | binary id left right body => once id do
    let m ← left.compute
    let k ← right.compute
    liftM (body m k)
  | each id inner body => once id (liftM (body fun state => (inner state).compute.run' {}))
  | among id bound inner body => once id do
    let m ← bound.compute
    liftM (body m fun state => (inner state).compute.run' {})

end Operator

/-- The operators made so far, by the formulas that they were made for and what the names stood for. -/
structure Graph (C : Type) where
  known : List ((Formula × Env) × Operator C) := []
  count : Nat := 0

namespace Graph

/-- The operator of a formula. -/
def find? (graph : Graph C) (f : Formula) (env : Env) : Option (Operator C) := graph.known.lookup (f, env)

/-- Keeps an operator for a formula. -/
def file (graph : Graph C) (f : Formula) (env : Env) (op : Operator C) : Graph C :=
  { graph with known := ((f, env), op) :: graph.known }

/-- The operator that was made for a formula before, or else an operator that is made and kept. -/
def share (f : Formula) (env : Env) (make : StateM (Graph C) (Operator C)) : StateM (Graph C) (Operator C) := do
  match (← get).find? f env with
  | some op => return op
  | none =>
    let op ← make
    modify (·.file f env op)
    return op

/-- The operator of a formula, which gets the next number after its operands are made. -/
def node (f : Formula) (env : Env) (operands : StateM (Graph C) β) (make : β → Nat → Operator C) :
    StateM (Graph C) (Operator C) :=
  share f env do
    let operands ← operands
    modifyGet fun graph => (make operands graph.count, { graph with count := graph.count + 1 })

end Graph

namespace Context

def compileNot (ctx : Context C) (f : Formula) (env : Env) (x : StateM (Graph C) (Operator C)) :
    StateM (Graph C) (Operator C) :=
  Graph.node (.not f) env x fun op id => .unary id op fun m => liftM (ctx.localMap.diff m)

def compileAnd (f g : Formula) (env : Env) (x y : StateM (Graph C) (Operator C)) :
    StateM (Graph C) (Operator C) :=
  Graph.node (.and f g) env (do return (← x, ← y)) fun (left, right) id =>
    .binary id left right fun m k => liftM (m.inter k)

def compileOr (f g : Formula) (env : Env) (x y : StateM (Graph C) (Operator C)) :
    StateM (Graph C) (Operator C) :=
  Graph.node (.or f g) env (do return (← x, ← y)) fun (left, right) id =>
    .binary id left right fun m k => liftM (m.union k)

/-- The operator of a formula in a graph. -/
def compile (ctx : Context C) : Formula → Env → StateM (Graph C) (Operator C)
  | .top, env => Graph.node .top env (pure ()) fun _ id => .leaf id (pure ctx.localMap)
  | .bottom, env => Graph.node .bottom env (pure ()) fun _ id => .leaf id (pure (.empty ctx.stateCount))
  | .atom a, env => Graph.node (.atom a) env (pure ()) fun _ id => .leaf id (ctx.evalAtom a)
  | .reference name, env =>
    Graph.node (.reference name) env (pure ()) fun _ id => .leaf id (ctx.evalReference env name)
  | .not f, env => ctx.compileNot f env (ctx.compile f env)
  | .and f g, env => compileAnd f g env (ctx.compile f env) (ctx.compile g env)
  | .or f g, env => compileOr f g env (ctx.compile f env) (ctx.compile g env)
  | .implies f g, env =>
    Graph.share (.implies f g) env
      (compileOr (.not f) g env (ctx.compileNot f env (ctx.compile f env)) (ctx.compile g env))
  | .equal f g, env =>
    let x := ctx.compile f env
    let y := ctx.compile g env
    Graph.share (.equal f g) env (compileOr (.and f g) (.and (.not f) (.not g)) env (compileAnd f g env x y)
      (compileAnd (.not f) (.not g) env (ctx.compileNot f env x) (ctx.compileNot g env y)))
  | .next quantifier course f, env =>
    Graph.node (.next quantifier course f) env (ctx.compile f env) fun op id => .unary id op fun phi =>
      match quantifier with
      | .some => Next.someStep ctx course phi
      | .all => Next.everyStep ctx course phi
  | .hold quantifier weak course f g, env =>
    Graph.node (.hold quantifier weak course f g) env
      (do return (← ctx.compile f env, ← ctx.compile g env)) fun (left, right) id =>
        .binary id left right fun path reach =>
          match quantifier with
          | .some => Until.somePath ctx weak course path reach
          | .all => Until.everyPath ctx weak course path reach
  | .bind name f, env =>
    Graph.node (.bind name f) env (pure ()) fun _ id =>
      .each id (fun state => ((ctx.compile f ((name, state) :: env)).run {}).1) (FirstOrder.bind ctx)
  | .jump name f, env =>
    match resolve env name with
    | .ok state =>
      Graph.node (.jump name f) env (ctx.compile f env) fun op id => .unary id op (FirstOrder.jump ctx state)
    | .error cause => Graph.node (.jump name f) env (pure ()) fun _ id => .leaf id (.fail cause)
  | .forAll name bound f, env =>
    Graph.node (.forAll name bound f) env (ctx.compile bound env) fun op id =>
      .among id op (fun state => ((ctx.compile f ((name, state) :: env)).run {}).1) (FirstOrder.forAll ctx)
  | .forSome name bound f, env =>
    Graph.node (.forSome name bound f) env (ctx.compile bound env) fun op id =>
      .among id op (fun state => ((ctx.compile f ((name, state) :: env)).run {}).1) (FirstOrder.forSome ctx)

end Context

/-- An implication is computed as a disjunction, and an equivalence as a disjunction of conjunctions. -/
def Formula.root : Formula → Formula
  | .implies f g => .or (.not f) g
  | .equal f g => .or (.and f g) (.and (.not f) (.not g))
  | f => f

/-- The formulas that a formula is computed from, under the same names. -/
def Formula.operands (env : Env) : Formula → List Formula
  | .not f | .next _ _ f | .forAll _ f _ | .forSome _ f _ => [f]
  | .and f g | .or f g | .hold _ _ _ f g => [f, g]
  | .jump name f => if (Context.resolve env name).isOk then [f] else []
  | _ => []

/-- The size of a formula without what stands under a name, which has graphs of its own. -/
def Formula.weight : Formula → Nat
  | .top | .bottom | .atom _ | .reference _ | .bind _ _ => 1
  | .not f | .next _ _ f | .jump _ f | .forAll _ f _ | .forSome _ f _ => f.weight + 1
  | .and f g | .or f g | .hold _ _ _ f g => f.weight + g.weight + 1
  | .implies f g => f.weight + g.weight + 3
  | .equal f g => 2 * (f.weight + g.weight) + 6

@[simp] theorem Formula.root_root (f : Formula) : f.root.root = f.root := by
  cases f <;> rfl

namespace Graph

variable {graph : Graph C} {f : Formula} {env : Env} {op : Operator C}

theorem find?_file (graph : Graph C) (f g : Formula) (env e : Env) (op : Operator C) :
    (graph.file f env op).find? g e = if g = f ∧ e = env then some op else graph.find? g e := by
  by_cases heq : g = f ∧ e = env
  · rw [if_pos heq, heq.1, heq.2]
    exact List.lookup_cons_self
  · have hbeq : ((g, e) == (f, env)) = false := by simpa using heq
    rw [if_neg heq, find?, file, List.lookup_cons, hbeq]
    rfl

theorem find?_file_of_ne {g : Formula} (h : g ≠ f) (e : Env) :
    (graph.file f env op).find? g e = graph.find? g e := by
  rw [find?_file, if_neg fun heq => h heq.1]

/-- Where there was no operator, none is lost. -/
theorem find?_file_of_some {g : Formula} {e : Env} {op' : Operator C} (hnone : graph.find? f env = none)
    (hop' : graph.find? g e = some op') : (graph.file f env op).find? g e = some op' := by
  rw [find?_file, if_neg, hop']
  rintro ⟨rfl, rfl⟩
  rw [hnone] at hop'
  cases hop'

/-- An operator that was made before is used again. -/
theorem share_of_known (h : graph.find? f env = some op) (make : StateM (Graph C) (Operator C)) :
    (share f env make).run graph = (op, graph) := by
  simp only [share, StateT.run_bind, StateT.run_get, pure_bind, h]
  rfl

/-- An operator that is made is kept. -/
theorem share_of_unknown (h : graph.find? f env = none) (make : StateM (Graph C) (Operator C)) :
    (share f env make).run graph =
      (((make.run graph).1, (make.run graph).2.file f env (make.run graph).1) : Operator C × Graph C) := by
  simp only [share, StateT.run_bind, StateT.run_get, pure_bind, h]
  rfl

/-- An operator gets the next number after its operands. -/
theorem node_of_unknown (h : graph.find? f env = none) {operands : StateM (Graph C) β} {b : β} {larger : Graph C}
    (hrun : operands.run graph = (b, larger)) (make : β → Nat → Operator C) :
    (node f env operands make).run graph =
      ((make b larger.count, Graph.file { larger with count := larger.count + 1 } f env (make b larger.count)) :
        Operator C × Graph C) := by
  rw [node, share_of_unknown h, StateT.run_bind, hrun]
  rfl

/-- The numbers of operators are given once, and an operator stands for the formulas that are computed as
its formula is; its operands are the operators of the operands of the formula. -/
structure Sound (graph : Graph C) : Prop where
  id_lt : ∀ {f env op}, graph.find? f env = some op → op.id < graph.count
  find?_root : ∀ {f env op}, graph.find? f env = some op → graph.find? f.root env = some op
  eq_of_id : ∀ {f g env e op op'}, graph.find? f env = some op → graph.find? g e = some op' →
    op.id = op'.id → env = e ∧ f.root = g.root
  operands_eq : ∀ {f env op}, graph.find? f env = some op →
    (f.root.operands env).map (graph.find? · env) = op.operands.map some

/-- Operators that are found stay found where nothing is taken away. -/
theorem map_find?_of_keeps {larger : Graph C} {e : Env} {fs : List Formula} {ops : List (Operator C)}
    (hkeeps : ∀ {f env op}, graph.find? f env = some op → larger.find? f env = some op)
    (h : fs.map (graph.find? · e) = ops.map some) : fs.map (larger.find? · e) = ops.map some := by
  rw [← h]
  refine List.map_congr_left fun g hg => ?_
  obtain ⟨op, _, hop⟩ : ∃ op ∈ ops, some op = graph.find? g e :=
    List.mem_map.1 (h ▸ List.mem_map_of_mem hg)
  rw [← hop, hkeeps hop.symm]

namespace Sound

theorem empty : Sound ({} : Graph C) := by
  constructor <;> simp [find?]

/-- Formulas have one operator exactly if the names stand for the same states and the formulas are computed in
the same way. -/
theorem id_eq_iff (h : graph.Sound) {g : Formula} {e : Env} {op' : Operator C}
    (hop : graph.find? f env = some op) (hop' : graph.find? g e = some op') :
    op.id = op'.id ↔ env = e ∧ f.root = g.root := by
  constructor
  · exact h.eq_of_id hop hop'
  · rintro ⟨rfl, hroot⟩
    have hfound := h.find?_root hop
    rw [hroot, h.find?_root hop'] at hfound
    cases hfound
    rfl

/-- A formula without an operator gets the next number. -/
theorem file_new (h : graph.Sound) (hnone : graph.find? f env = none) (hroot : f.root = f)
    (hid : op.id = graph.count) (hops : (f.operands env).map (graph.find? · env) = op.operands.map some) :
    (Graph.file { graph with count := graph.count + 1 } f env op).Sound := by
  have hfile (g : Formula) (e : Env) : (Graph.file { graph with count := graph.count + 1 } f env op).find? g e =
      if g = f ∧ e = env then some op else graph.find? g e := find?_file _ _ _ _ _ _
  have hkeeps {g : Formula} {e : Env} {op' : Operator C} (hop' : graph.find? g e = some op') :
      (Graph.file { graph with count := graph.count + 1 } f env op).find? g e = some op' :=
    find?_file_of_some hnone hop'
  constructor
  · intro g e op' hop'
    rw [hfile] at hop'
    split at hop'
    · cases hop'
      exact hid ▸ Nat.lt_succ_self _
    · exact Nat.lt_succ_of_lt (h.id_lt hop')
  · intro g e op' hop'
    rw [hfile] at hop' ⊢
    split at hop'
    · next heq =>
      rw [heq.1, hroot, if_pos ⟨rfl, heq.2⟩, hop']
    · rw [← hfile]
      exact hkeeps (h.find?_root hop')
  · intro g k e e' op₁ op₂ h₁ h₂ heq
    rw [hfile] at h₁ h₂
    split at h₁ <;> split at h₂
    · next hg hk => exact ⟨hg.2.trans hk.2.symm, by rw [hg.1, hk.1]⟩
    · cases h₁
      exact absurd (h.id_lt h₂) (by omega)
    · cases h₂
      exact absurd (h.id_lt h₁) (by omega)
    · exact h.eq_of_id h₁ h₂ heq
  · intro g e op' hop'
    rw [hfile] at hop'
    split at hop'
    · next heq =>
      cases hop'
      rw [heq.1, heq.2, hroot]
      exact map_find?_of_keeps hkeeps hops
    · exact map_find?_of_keeps hkeeps (h.operands_eq hop')

/-- A formula without an operator is filed with the operator of the formula that it is computed as. -/
theorem file_root (h : graph.Sound) (hnone : graph.find? f env = none)
    (hop : graph.find? f.root env = some op) : (graph.file f env op).Sound := by
  -- Whatever is filed is filed for a formula that is computed in the same way, with the same operator.
  have hfiled {g : Formula} {e : Env} {op' : Operator C} (hop' : (graph.file f env op).find? g e = some op') :
      graph.find? g.root e = some op' := by
    rw [find?_file] at hop'
    split at hop'
    · next heq =>
      cases hop'
      rwa [heq.1, heq.2]
    · exact h.find?_root hop'
  constructor
  · exact fun hop' => h.id_lt (hfiled hop')
  · exact fun hop' => find?_file_of_some hnone (hfiled hop')
  · intro g k e e' op₁ op₂ h₁ h₂ heq
    simpa using h.eq_of_id (hfiled h₁) (hfiled h₂) heq
  · intro g e op' hop'
    simpa using map_find?_of_keeps (find?_file_of_some hnone) (h.operands_eq (hfiled hop'))

end Sound

/-- The graph has more operators, for formulas up to a size. -/
structure Grows (size : Nat) (graph larger : Graph C) : Prop where
  sound : larger.Sound
  count_le : graph.count ≤ larger.count
  find?_eq_some : ∀ {f env op}, graph.find? f env = some op → larger.find? f env = some op
  find?_eq_of_lt : ∀ {f} env, size < f.weight → larger.find? f env = graph.find? f env

namespace Grows

variable {larger largest : Graph C} {size size' : Nat}

theorem refl (h : graph.Sound) (size : Nat) : Grows size graph graph :=
  ⟨h, Nat.le_refl _, fun hop => hop, fun _ _ => rfl⟩

theorem trans (h : Grows size graph larger) (h' : Grows size' larger largest) :
    Grows (max size size') graph largest where
  sound := h'.sound
  count_le := Nat.le_trans h.count_le h'.count_le
  find?_eq_some hop := h'.find?_eq_some (h.find?_eq_some hop)
  find?_eq_of_lt env hlt := by
    rw [h'.find?_eq_of_lt env (Nat.lt_of_le_of_lt (Nat.le_max_right _ _) hlt),
      h.find?_eq_of_lt env (Nat.lt_of_le_of_lt (Nat.le_max_left _ _) hlt)]

/-- One more formula is filed. -/
theorem file (h : Grows size graph larger) (hnone : larger.find? f env = none) (hle : size ≤ f.weight)
    {count : Nat} (hcount : larger.count ≤ count)
    (hsound : (Graph.file { larger with count := count } f env op).Sound) :
    Grows f.weight graph (Graph.file { larger with count := count } f env op) where
  sound := hsound
  count_le := Nat.le_trans h.count_le hcount
  find?_eq_some hop := find?_file_of_some hnone (h.find?_eq_some hop)
  find?_eq_of_lt {g} e hlt := by
    rw [find?_file_of_ne (by rintro rfl; exact Nat.lt_irrefl _ hlt)]
    exact h.find?_eq_of_lt e (Nat.lt_of_le_of_lt hle hlt)

end Grows

/-- The operators of formulas are made and kept, with others for formulas up to a size. -/
def Builds (size : Nat) (fs : List Formula) (env : Env) (make : StateM (Graph C) β)
    (ops : β → List (Operator C)) : Prop :=
  ∀ graph : Graph C, graph.Sound → Grows size graph (make.run graph).2 ∧
    fs.map ((make.run graph).2.find? · env) = (ops (make.run graph).1).map some

/-- The operator of a formula is made and kept. -/
def Files (f : Formula) (env : Env) (make : StateM (Graph C) (Operator C)) : Prop :=
  ∀ graph : Graph C, graph.Sound → Grows f.weight graph (make.run graph).2 ∧
    (make.run graph).2.find? f env = some (make.run graph).1

theorem Files.builds {make : StateM (Graph C) (Operator C)} (h : Files f env make) :
    Builds f.weight [f] env make fun op => [op] :=
  fun graph hgraph => ⟨(h graph hgraph).1, congrArg ([·]) (h graph hgraph).2⟩

theorem builds_pure (b : β) (size : Nat) (env : Env) :
    Builds size [] env (pure b : StateM (Graph C) β) fun _ => [] :=
  fun _ h => ⟨.refl h size, rfl⟩

theorem Builds.pair {size size' : Nat} {fs gs : List Formula} {x : StateM (Graph C) α} {y : StateM (Graph C) β}
    {xs : α → List (Operator C)} {ys : β → List (Operator C)} (hx : Builds size fs env x xs)
    (hy : Builds size' gs env y ys) :
    Builds (max size size') (fs ++ gs) env (do return (← x, ← y)) fun p => xs p.1 ++ ys p.2 := by
  intro graph h
  obtain ⟨hgrows, hxs⟩ := hx graph h
  obtain ⟨hgrows', hys⟩ := hy _ hgrows.sound
  refine ⟨hgrows.trans hgrows', ?_⟩
  have hboth := congr (congrArg (· ++ ·) (map_find?_of_keeps hgrows'.find?_eq_some hxs)) hys
  rw [← List.map_append, ← List.map_append] at hboth
  exact hboth

theorem files_node {size : Nat} {operands : StateM (Graph C) β} {ops : β → List (Operator C)}
    {make : β → Nat → Operator C} (hoperands : Builds size (f.operands env) env operands ops)
    (hlt : size < f.weight) (hroot : f.root = f)
    (hmake : ∀ b id, (make b id).id = id ∧ (make b id).operands = ops b) :
    Files f env (node f env operands make) := by
  intro graph h
  cases hfind : graph.find? f env with
  | some op =>
    rw [node, share_of_known hfind]
    exact ⟨.refl h _, hfind⟩
  | none =>
    obtain ⟨hgrows, hops⟩ := hoperands graph h
    rcases hrun : operands.run graph with ⟨b, larger⟩
    rw [hrun] at hgrows hops
    obtain ⟨hid, hoperands⟩ := hmake b larger.count
    -- What was made for the operands is for smaller formulas, so the formula still has no operator.
    have hnone := (hgrows.find?_eq_of_lt env hlt).trans hfind
    rw [node_of_unknown hfind hrun]
    refine ⟨hgrows.file hnone (Nat.le_of_lt hlt) (Nat.le_succ _) ?_, by simp [find?_file]⟩
    exact hgrows.sound.file_new hnone hroot hid (hoperands.symm ▸ hops)

/-- A formula that is computed as another one has the operator of that one. -/
theorem files_share {make : StateM (Graph C) (Operator C)} (hmake : Files f.root env make)
    (hlt : f.root.weight < f.weight) : Files f env (share f env make) := by
  intro graph h
  cases hfind : graph.find? f env with
  | some op =>
    rw [share_of_known hfind]
    exact ⟨.refl h _, hfind⟩
  | none =>
    obtain ⟨hgrows, hop⟩ := hmake graph h
    have hnone := (hgrows.find?_eq_of_lt env hlt).trans hfind
    rw [share_of_unknown hfind]
    exact ⟨hgrows.file hnone (Nat.le_of_lt hlt) (Nat.le_refl _) (hgrows.sound.file_root hnone hop),
      by simp [find?_file]⟩

end Graph

namespace Context

open ColoredCtl.Graph

variable {f g : Formula} {env : Env} {x y : StateM (Graph C) (Operator C)} (ctx : Context C)

theorem compileNot_files (hx : Files f env x) : Files (.not f) env (ctx.compileNot f env x) :=
  files_node hx.builds (Nat.lt_succ_self _) rfl fun _ _ => ⟨rfl, rfl⟩

theorem compileAnd_files (hx : Files f env x) (hy : Files g env y) :
    Files (.and f g) env (compileAnd f g env x y) :=
  files_node (hx.builds.pair hy.builds) (by simp only [Formula.weight]; omega) rfl fun _ _ => ⟨rfl, rfl⟩

theorem compileOr_files (hx : Files f env x) (hy : Files g env y) :
    Files (.or f g) env (compileOr f g env x y) :=
  files_node (hx.builds.pair hy.builds) (by simp only [Formula.weight]; omega) rfl fun _ _ => ⟨rfl, rfl⟩

/-- The operator of a formula is made and kept, and the operators made before stay. -/
theorem compile_files (f : Formula) (env : Env) : Files f env (ctx.compile f env) := by
  induction f generalizing env with
  | top | bottom | atom a | reference name | bind name f ih =>
    exact files_node (builds_pure () 0 env) Nat.one_pos rfl fun _ _ => ⟨rfl, rfl⟩
  | not f ih => exact ctx.compileNot_files (ih env)
  | and f g ihf ihg => exact compileAnd_files (ihf env) (ihg env)
  | or f g ihf ihg => exact compileOr_files (ihf env) (ihg env)
  | implies f g ihf ihg =>
    exact files_share (compileOr_files (ctx.compileNot_files (ihf env)) (ihg env))
      (by simp only [Formula.root, Formula.weight]; omega)
  | equal f g ihf ihg =>
    exact files_share (compileOr_files (compileAnd_files (ihf env) (ihg env))
      (compileAnd_files (ctx.compileNot_files (ihf env)) (ctx.compileNot_files (ihg env))))
      (by simp only [Formula.root, Formula.weight]; omega)
  | next quantifier course f ih =>
    exact files_node (ih env).builds (Nat.lt_succ_self _) rfl fun _ _ => ⟨rfl, rfl⟩
  | hold quantifier weak course f g ihf ihg =>
    exact files_node ((ihf env).builds.pair (ihg env).builds) (by simp only [Formula.weight]; omega) rfl
      fun _ _ => ⟨rfl, rfl⟩
  | jump name f ih =>
    rw [compile]
    cases hresolve : resolve env name with
    | ok state =>
      have hoperands : (Formula.jump name f).operands env = [f] := by
        rw [Formula.operands, hresolve]
        rfl
      exact files_node (hoperands ▸ (ih env).builds) (Nat.lt_succ_self _) rfl fun _ _ => ⟨rfl, rfl⟩
    | error cause =>
      have hoperands : (Formula.jump name f).operands env = [] := by
        rw [Formula.operands, hresolve]
        rfl
      exact files_node (hoperands ▸ builds_pure () 0 env) (Nat.succ_pos _) rfl fun _ _ => ⟨rfl, rfl⟩
  | forAll name bound f ihb ihf | forSome name bound f ihb ihf =>
    exact files_node (ihb env).builds (Nat.lt_succ_self _) rfl fun _ _ => ⟨rfl, rfl⟩

-- The negation is a part of the formula, and of what the formula is computed as; it has one operator.
example : ((ctx.compile (.equal (.reference "v") (.not (.reference "v"))) [("v", 0)]).run {}).2.count = 6 := by
  rfl

end Context

end ColoredCtl

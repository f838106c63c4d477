import ColoredCtl.Check.Validate
import ColoredCtl.Proofs.Check.EveryPath
import ColoredCtl.Proofs.Check.FirstOrder

namespace ColoredCtl

open Color

variable {C : Type} {A : Algebra C}

/-- The names of a scope stand for states. -/
def Env.Binds (env : Env) (stateCount : Nat) (scope : List String) : Prop :=
  ∀ name ∈ scope, ∃ v < stateCount, env.lookup name = some v

theorem Env.binds_nil (env : Env) (stateCount : Nat) : env.Binds stateCount [] := by
  simp [Env.Binds]

/-- One more name that stands for a state; it hides what it stood for before. -/
theorem Env.Binds.cons {env : Env} {stateCount v : Nat} {scope : List String} (h : env.Binds stateCount scope)
    (name : String) (hv : v < stateCount) : Env.Binds ((name, v) :: env) stateCount (name :: scope) := by
  intro x hx
  by_cases heq : x = name
  · exact ⟨v, hv, by simp [heq]⟩
  · obtain ⟨w, hw, hlookup⟩ := h x (List.mem_of_ne_of_mem heq hx)
    have hbeq : (x == name) = false := by simpa using heq
    exact ⟨w, hw, by rw [List.lookup_cons, hbeq, hlookup]⟩

namespace Team

variable {R : Reading A} {M : Model C} {S : Nat → Kripke} {K : Nat} (T : Team R M S K) {α β : Type}

/-- The workers keep maps for the same formulas, and these show where the formulas hold. -/
def Remembers (env : Env) (memo : Fin K → Memo C) : Prop :=
  ∀ f, (∀ i, (memo i).find? f = none) ∨
    ∃ m : Fin K → StateMap C, (∀ i, (memo i).find? f = some (m i)) ∧ T.Shows (f.extent S env) m

/-- A computation with kept maps comes to results as stated, and keeps what it may keep. -/
def Shares (env : Env) (w : Fin K → Recorded C α) (Q : (Fin K → α) → Prop) : Prop :=
  ∀ memo, T.Remembers env memo → T.Records (fun i => (w i).run (memo i)) fun r =>
    Q (fun i => (r i).1) ∧ T.Remembers env fun i => (r i).2

namespace Shares

variable {T} {env : Env} {Q : (Fin K → α) → Prop}

theorem bind {w : Fin K → Recorded C α} {f : Fin K → α → Recorded C β} {Q' : (Fin K → β) → Prop}
    (hw : T.Shares env w Q) (hf : ∀ r, Q r → T.Shares env (fun i => f i (r i)) Q') :
    T.Shares env (fun i => w i >>= f i) Q' := by
  intro memo hmemo
  simp only [StateT.run_bind]
  exact (hw memo hmemo).bind fun r hr => hf _ hr.1 _ hr.2

theorem done {r : Fin K → α} (h : Q r) : T.Shares env (fun i => pure (r i)) Q :=
  fun _ hmemo => .done ⟨h, hmemo⟩

/-- A computation that does not look at the kept maps. -/
theorem lift {x : Fin K → Recorder C α} (h : T.Records x Q) :
    T.Shares env (fun i => (liftM (x i) : Recorded C α)) Q := by
  intro memo hmemo
  exact h.bind (f := fun i a => pure (a, memo i)) fun r hr => .done ⟨hr, hmemo⟩

theorem pair {v : Fin K → Recorded C α} {w : Fin K → Recorded C β} {Q' : (Fin K → β) → Prop}
    (hv : T.Shares env v Q) (hw : T.Shares env w Q') :
    T.Shares env (fun i => do return (← v i, ← w i)) fun r =>
      Q (fun i => (r i).1) ∧ Q' fun i => (r i).2 :=
  hv.bind fun a ha => hw.bind fun b hb => .done (r := fun i => (a i, b i)) ⟨ha, hb⟩

/-- What was computed before is as good as computed now. -/
theorem keep {f : Formula} {w : Fin K → Recorded C (StateMap C)}
    (h : T.Shares env w (T.Shows (f.extent S env))) :
    T.Shares env (fun i => ColoredCtl.keep f (w i)) (T.Shows (f.extent S env)) := by
  intro memo hmemo
  rcases hmemo f with hnone | ⟨m, hm, hshows⟩
  · have hrun : (fun i => (ColoredCtl.keep f (w i)).run (memo i)) = fun i =>
        (w i).run (memo i) >>= fun r => pure (r.1, r.2.insert f r.1) := by
      funext i
      simp only [ColoredCtl.keep, StateT.run_bind, StateT.run_get, pure_bind, hnone i]
      rfl
    rw [hrun]
    refine (h memo hmemo).bind fun r hr => .done ⟨hr.1, ?_⟩
    intro g
    simp only [Memo.find?_insert]
    by_cases heq : g = f
    · subst heq
      exact .inr ⟨fun i => (r i).1, fun i => by simp, hr.1⟩
    · simp only [if_neg heq]
      exact hr.2 g
  · have hrun : (fun i => (ColoredCtl.keep f (w i)).run (memo i)) = fun i => pure (m i, memo i) := by
      funext i
      simp only [ColoredCtl.keep, StateT.run_bind, StateT.run_get, pure_bind, hm i]
      rfl
    rw [hrun]
    exact .done ⟨hshows, hmemo⟩

/-- An operator is computed from its operands, and entered by all workers with the same numbers. -/
theorem note {f : Formula} {operands : Fin K → Recorded C β} {P : (Fin K → β) → Prop}
    {body : Fin K → β → Recorder C (Packet C × StateMap C)} (hoperands : T.Shares env operands P)
    (hbody : ∀ b, P b → T.Records (fun i => body i (b i)) (Walks (T.Shows (f.extent S env)))) :
    T.Shares env (fun i => ColoredCtl.note f env (operands i) (body i)) (T.Shows (f.extent S env)) := by
  refine keep fun memo hmemo journal hlogs => ?_
  simp only [visit_run, StateT.run_bind, StateT.run_get, pure_bind]
  refine (hoperands memo hmemo journal hlogs).bind fun r hr => ?_
  refine (hbody _ hr.1.1 _ hr.2).bind fun p hp => .done ⟨⟨hp.1.2, hr.1.2⟩, ?_⟩
  refine hp.2.close (fun i j => ?_) hp.1.2
  obtain ⟨walked, hwalked⟩ := hp.1.1
  rw [hwalked i, hwalked j, hlogs.length_eq i j, hr.2.length_eq i j, hp.2.length_eq i j]

/-- An operator without operands. -/
theorem leaf {f : Formula} {body : Fin K → Unit → Recorder C (Packet C × StateMap C)}
    (h : T.Records (fun i => body i ()) (Walks (T.Shows (f.extent S env)))) :
    T.Shares env (fun i => ColoredCtl.note f env (pure ()) (body i)) (T.Shows (f.extent S env)) :=
  note (P := fun _ => True) (.done trivial) fun _ _ => h

/-- An evaluation of its own starts without kept maps. -/
theorem run' {w : Fin K → Recorded C α} (h : T.Shares env w Q) :
    T.Records (fun i => (w i).run' {}) Q := by
  have hempty : T.Remembers env fun _ => {} := by
    intro f
    left
    simp
  exact (h _ hempty).bind (f := fun _ r => pure r.1) fun r hr => .done hr.1

end Shares

section Connectives

variable {T} {env : Env} {f g : Formula} {m k : Fin K → Recorded C (StateMap C)}

theorem recordNot_spec (hm : T.Shares env m (T.Shows (f.extent S env))) :
    T.Shares env (fun i => (T.ctx i).recordNot f env (m i)) (T.Shows ((Formula.not f).extent S env)) := by
  refine .note hm fun a ha => .direct (.lift (.compute fun i => ?_))
  obtain ⟨d, hd, hshows⟩ := (T.ready i).localMap_shows.diff_spec (ha i) (T.ready i).stateCount_le
  refine ⟨d, hd, hshows.congr (fun _ hs => hs) fun s c => ?_⟩
  simp only [Formula.mem_extent, Formula.Holds, Set.mem_univ]
  tauto

theorem recordAnd_spec (hm : T.Shares env m (T.Shows (f.extent S env)))
    (hk : T.Shares env k (T.Shows (g.extent S env))) :
    T.Shares env (fun i => Context.recordAnd f g env (m i) (k i))
      (T.Shows ((Formula.and f g).extent S env)) := by
  refine .note (hm.pair hk) fun r hr => .direct (.lift (.compute fun i => ?_))
  obtain ⟨both, hboth, hshows⟩ := (hr.1 i).inter_spec (hr.2 i) (T.ready i).stateCount_le
  refine ⟨both, hboth, hshows.congr (fun _ hs => hs.1) fun s c => ?_⟩
  simp only [Formula.mem_extent, Formula.Holds]
  tauto

theorem recordOr_spec (hm : T.Shares env m (T.Shows (f.extent S env)))
    (hk : T.Shares env k (T.Shows (g.extent S env))) :
    T.Shares env (fun i => Context.recordOr f g env (m i) (k i))
      (T.Shows ((Formula.or f g).extent S env)) := by
  refine .note (hm.pair hk) fun r hr => .direct (.lift (.compute fun i => ?_))
  obtain ⟨either, heither, hshows⟩ := (hr.1 i).union_spec (hr.2 i) (T.ready i).stateCount_le
  refine ⟨either, heither, hshows.congr (fun _ hs => hs) fun s c => ?_⟩
  simp only [Formula.mem_extent, Formula.Holds]
  tauto

/-- Formulas that hold at the same states are shown by the same maps. -/
theorem extent_eq (h : ∀ c s, f.Holds (S c) env s ↔ g.Holds (S c) env s) :
    f.extent S env = g.extent S env := by
  funext c
  exact Set.ext (h c)

end Connectives

section Leaves

theorem evalAtom_spec {a : Atom} (ha : M.checkAtom a = .ok ()) (env : Env) :
    T.Ends (fun i => (T.ctx i).evalAtom a) (T.Shows ((Formula.atom a).extent S env)) := by
  obtain ⟨m, hm, hshows⟩ := T.serves.atom_spec ha
  have hmodel : ∀ i, Attempt.ofModel ((T.ctx i).model.evalAtom a) = .ok m := by
    intro i
    rw [hm, ofModel_ok]
  refine .bind (.attempt fun i => ⟨m, hmodel i, rfl⟩) fun r hr => .compute fun i => ?_
  obtain ⟨both, hboth, hbothShows⟩ :=
    (T.ready i).localMap_shows.inter_spec (hr i ▸ hshows) (T.ready i).stateCount_le
  refine ⟨both, hboth, hbothShows.congr (fun _ hs => hs.1) fun s c => ?_⟩
  simp only [Formula.mem_extent, Formula.Holds, Set.mem_univ, T.owns_iff]
  tauto

variable {env : Env} {name : String} {scope : List String}

/-- A name in scope stands for a state. -/
theorem resolve_spec (hname : checkBound scope name = .ok ()) (henv : env.Binds M.stateCount scope) :
    ∃ v, Context.resolve env name = .ok v ∧ env.lookup name = some v ∧ v < M.stateCount := by
  have hscope : name ∈ scope := by
    unfold checkBound at hname
    split at hname
    · next hcontains => exact List.contains_iff_mem.1 hcontains
    · cases hname
  obtain ⟨v, hv, hlookup⟩ := henv name hscope
  exact ⟨v, by rw [Context.resolve, hlookup], hlookup, hv⟩

theorem evalReference_spec (hname : checkBound scope name = .ok ())
    (henv : env.Binds M.stateCount scope) :
    T.Ends (fun i => (T.ctx i).evalReference env name)
      (T.Shows ((Formula.reference name).extent S env)) := by
  obtain ⟨v, hv, hlookup, hlt⟩ := resolve_spec hname henv
  refine .bind (.attempt fun i => ⟨v, hv, rfl⟩) fun r hr => .of_done fun i => ?_
  rw [← hr i]
  by_cases howner : T.owner v = i
  · have hlocal : (T.ctx i).partition.isLocal v = true := beq_iff_eq.2 howner
    refine ⟨.single v A.full.get M.stateCount, by rw [if_pos hlocal]; rfl,
      ⟨rfl, hlt, R.inDomain_full⟩, ?_, ?_⟩
    · intro s hs
      obtain rfl : s = v := by simpa [StateMap.contains] using hs
      exact ⟨hlt, howner⟩
    · intro s c
      rw [StateMap.colorsAt_single]
      simp only [Formula.mem_extent, Formula.Holds, hlookup, Option.some.injEq]
      by_cases hs : s = v
      · subst hs
        have howns : (T.ctx i).Owns s := ⟨hlt, howner⟩
        simp [R.colors_full, howns]
      · simp [hs, Ne.symm hs]
  · have hlocal : ¬(T.ctx i).partition.isLocal v = true := fun heq => howner (beq_iff_eq.1 heq)
    refine ⟨.empty M.stateCount, by rw [if_neg hlocal]; rfl, rfl, by simp [StateMap.contains], ?_⟩
    intro s c
    simp only [StateMap.colorsAt_empty, Finset.notMem_empty, false_iff, Formula.mem_extent,
      Formula.Holds, hlookup, Option.some.injEq]
    rintro ⟨howns, _, rfl⟩
    exact howner howns.2

end Leaves

/-- Together the workers find the states with a step, all steps of which lead into the map. -/
theorem recordEveryStep_spec (course : Course) {phi : Fin K → StateMap C} {P : Nat → Set Nat}
    (hphi : T.Shows P phi) :
    T.Records (fun i => Next.recordEveryStep (T.ctx i) course (phi i))
      (T.Shows fun c => {s | (S c).Next .all course (P c) s}) :=
  (Records.observe (T.witnesses_spec course hphi)).bind fun _ hwitnesses =>
    (Records.observe (T.someStep_spec course hphi)).bind fun _ hcandidates =>
      .observe ((T.settle_spec course hphi hwitnesses hcandidates.shows).imp fun _ hm => hm.shows)

/-- A team evaluates a formula, whose names are in scope and whose atoms the model knows, to the states
where it holds. -/
theorem record_spec (f : Formula) {env : Env} {scope : List String} (hvalid : f.validate M scope = .ok ())
    (henv : env.Binds M.stateCount scope) :
    T.Shares env (fun i => (T.ctx i).record f env) (T.Shows (f.extent S env)) := by
  induction f generalizing env scope with
  | top =>
    refine .leaf (.direct (.done fun i => ?_))
    exact (T.ready i).localMap_shows
  | bottom =>
    refine .leaf (.direct (.done fun i => ?_))
    exact ⟨rfl, by simp [StateMap.contains], by simp [Formula.mem_extent, Formula.Holds]⟩
  | atom a =>
    have ha : M.checkAtom a = .ok () := by
      cases hcheck : M.checkAtom a with
      | ok _ => rfl
      | error cause =>
        rw [Formula.validate, hcheck] at hvalid
        cases hvalid
    exact .leaf (.direct (.lift (T.evalAtom_spec ha env)))
  | reference name =>
    exact .leaf (.direct (.lift (T.evalReference_spec hvalid henv)))
  | not f ih => exact recordNot_spec (ih hvalid henv)
  | and f g ihf ihg =>
    obtain ⟨_, hf, hg⟩ := bind_eq_ok_iff.1 hvalid
    exact recordAnd_spec (ihf hf henv) (ihg hg henv)
  | or f g ihf ihg =>
    obtain ⟨_, hf, hg⟩ := bind_eq_ok_iff.1 hvalid
    exact recordOr_spec (ihf hf henv) (ihg hg henv)
  | implies f g ihf ihg =>
    obtain ⟨_, hf, hg⟩ := bind_eq_ok_iff.1 hvalid
    have hor := recordOr_spec (recordNot_spec (ihf hf henv)) (ihg hg henv)
    rw [extent_eq (g := .implies f g) fun c s => by simp only [Formula.Holds]; tauto] at hor
    exact .keep hor
  | equal f g ihf ihg =>
    obtain ⟨_, hf, hg⟩ := bind_eq_ok_iff.1 hvalid
    have hor := recordOr_spec (recordAnd_spec (ihf hf henv) (ihg hg henv))
      (recordAnd_spec (recordNot_spec (ihf hf henv)) (recordNot_spec (ihg hg henv)))
    rw [extent_eq (g := .equal f g) fun c s => by simp only [Formula.Holds]; tauto] at hor
    exact .keep hor
  | next quantifier course f ih =>
    refine .note (ih hvalid henv) fun phi hphi => .direct ?_
    cases quantifier with
    | some => exact .observe ((T.someStep_spec course hphi).imp fun _ hm => hm.shows)
    | all => exact T.recordEveryStep_spec course hphi
  | hold quantifier weak course f g ihf ihg =>
    obtain ⟨_, hf, hg⟩ := bind_eq_ok_iff.1 hvalid
    refine .note ((ihf hf henv).pair (ihg hg henv)) fun r hr => .direct ?_
    cases quantifier with
    | some => exact .observe ((T.somePath_spec hr.1 hr.2).imp fun _ hm => hm.shows)
    | all => exact .observe ((T.everyPath_spec hr.1 hr.2).imp fun _ hm => hm.shows)
  | bind name f ih =>
    exact .leaf (.direct (T.bind_spec fun v hv => Shares.run' (ih hvalid (henv.cons name hv))))
  | jump name f ih =>
    obtain ⟨_, hname, hf⟩ := bind_eq_ok_iff.1 hvalid
    obtain ⟨v, hv, hlookup, hlt⟩ := resolve_spec hname henv
    have hresolve : T.Shares env (fun _ => (liftM (Context.resolve env name) : Recorded C Nat)) fun r =>
        ∀ i, v = r i :=
      .lift (.lift (.attempt fun _ => ⟨v, hv, rfl⟩))
    refine .note (hresolve.pair (ih hf henv)) fun r hr => .direct ?_
    have hextent : (Formula.jump name f).extent S env = fun c => {_s | v ∈ f.extent S env c} := by
      funext c
      ext s
      simp [Formula.mem_extent, Formula.Holds, hlookup]
    simp only [hextent, ← hr.1]
    exact .observe (T.jump_spec hr.2 hlt)
  | forAll name bound f ihb ihf =>
    obtain ⟨_, hb, hf⟩ := bind_eq_ok_iff.1 hvalid
    have hextent : (Formula.forAll name bound f).extent S env = fun c => {s | ∀ v < M.stateCount,
        v ∈ bound.extent S env c → s ∈ f.extent S ((name, v) :: env) c} := by
      funext c
      ext s
      simp [Formula.mem_extent, Formula.Holds, T.serves.stateCount_eq]
    refine .note (ihb hb henv) fun m hm => ?_
    rw [hextent]
    exact T.forAll_spec hm fun v hv => Shares.run' (ihf hf (henv.cons name hv))
  | forSome name bound f ihb ihf =>
    obtain ⟨_, hb, hf⟩ := bind_eq_ok_iff.1 hvalid
    have hextent : (Formula.forSome name bound f).extent S env = fun c => {s | ∃ v < M.stateCount,
        v ∈ bound.extent S env c ∧ s ∈ f.extent S ((name, v) :: env) c} := by
      funext c
      ext s
      simp [Formula.mem_extent, Formula.Holds, T.serves.stateCount_eq]
    refine .note (ihb hb henv) fun m hm => ?_
    rw [hextent]
    exact T.forSome_spec hm fun v hv => Shares.run' (ihf hf (henv.cons name hv))

/-- A team evaluates a formula in the same way without a journal. -/
theorem eval_spec (f : Formula) {env : Env} {scope : List String} (hvalid : f.validate M scope = .ok ())
    (henv : env.Binds M.stateCount scope) :
    T.Ends (fun i => ((T.ctx i).eval f env).run' {}) (T.Shows (f.extent S env)) := by
  obtain ⟨r, hyields, hshows, _⟩ := (T.record_spec f hvalid henv).run' _ .empty
  have hworkers := hyields.map_result Prod.fst
  simp only [(((T.ctx _).record_mirrors f env).run' {}).map_fst_run] at hworkers
  exact ⟨_, hworkers, hshows⟩

end Team

end ColoredCtl

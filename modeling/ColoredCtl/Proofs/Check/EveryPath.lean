import ColoredCtl.Proofs.Check.Coverage

/-!
Until on every path is computed as it is meant.

A color at a state is owed to the workers of the states with a step to it: they have heard of it when
none of their transitions to it keeps the color. A state whose transitions keep a color no more holds
for it, so the results are the least sets that have the seeds and what is owed for them.
-/

namespace ColoredCtl

open Color

namespace Until

variable {C : Type} {ctx : Context C} {R : Reading ctx.algebra} {S : Nat → Kripke}
  {s : Search C (Cover C)} {value : C}

/-- A state takes a value of a target into account: its transitions to the target lose the colors of the
value, and the result gets the colors that are now left at none of its transitions. -/
theorem notifyState_spec (hs : s.Fits ctx R) (hraises : s.memory.Raises R s.result) {p : Nat}
    {cov : Coverage C} (hcov : s.memory.coverage[p]? = some cov) (hp : ctx.Owns p)
    (hbase : R.InDomain cov.base) (hedges : ∀ edge ∈ cov.edges, R.InDomain edge.2)
    (hvalue : R.InDomain value) (u : Nat) :
    ∃ next s', notifyState ctx u value s p = .ok s' ∧ cov.Shrinks R u value next ∧
      Cover.Renewed p next s.memory s'.memory ∧ s'.Fits ctx R ∧ Search.Extends ctx R s s' ∧
      s'.staging = s.staging ∧ s'.memory.Raises R s'.result ∧
      ∀ {t c}, c ∈ s'.result.colorsAt R t → c ∈ s.result.colorsAt R t ∨ t = p ∧ next.Confirms R c := by
  obtain ⟨shrunk, hshrunk, hnext, hsame⟩ := Coverage.Shrinks.shrinkEdges_spec hedges hvalue u
  refine ⟨{ cov with edges := shrunk.map (·.2) }, ?_⟩
  cases hany : shrunk.any (·.1) with
  | false =>
    refine ⟨s, ?_, hnext, ⟨?_, rfl⟩, hs, .refl s, rfl, hraises, .inl⟩
    · simp only [notifyState, hcov, hshrunk, liftM_ok, ok_bind, hany]
      rfl
    · intro q
      rw [hsame hany]
      split
      · next heq => rw [← heq, hcov]
      · rfl
  | true =>
    let after : Cover C := { s.memory with
      coverage := s.memory.coverage.insert p { cov with edges := shrunk.map (·.2) } }
    have hafter : Cover.Renewed p { cov with edges := shrunk.map (·.2) } s.memory after := by
      refine ⟨fun q => ?_, rfl⟩
      simp only [after, Std.TreeMap.getElem?_insert, Std.LawfulEqCmp.compare_eq_iff_eq]
    obtain ⟨remaining, hremaining, hremainingIn, hremainingColors⟩ :=
      R.unionAll_spec R.inDomain_empty (l := (shrunk.map (·.2)).map (·.2)) (by
        intro a ha
        obtain ⟨edge, hedge, rfl⟩ := List.mem_map.1 ha
        obtain ⟨_, _, hedge⟩ := hnext.exists_before hedge
        exact hedge.inDomain)
    obtain ⟨covered, hcovered, hcoveredIn, hcoveredColors⟩ := R.diff_spec hbase hremainingIn
    have hconfirms (c : Nat) : c ∈ R.colors covered ↔
        Coverage.Confirms R { cov with edges := shrunk.map (·.2) } c := by
      rw [hcoveredColors, Finset.mem_sdiff, hremainingColors, R.colors_empty, Coverage.Confirms]
      generalize shrunk.map (·.2) = edges
      simp [-Prod.forall, -Prod.exists]
    obtain ⟨hfits, hext⟩ := hs.remember after
    obtain ⟨s', hs', hfits', hstaging, hmemory, hext', hresult⟩ := hfits.raise_spec hp hcoveredIn
    refine ⟨s', ?_, hnext, hmemory ▸ hafter, hfits', hext.trans hext', hstaging, ?_, ?_⟩
    · simp only [notifyState, hcov, hshrunk, liftM_ok, ok_bind, hany, if_true, hremaining, hcovered]
      exact hs'
    · intro q cov' hcov' c hc
      rw [hmemory, hafter.coverage_eq] at hcov'
      split at hcov'
      · next heq =>
        cases heq
        cases hcov'
        rw [hresult, if_pos rfl]
        exact Finset.mem_union_right _ ((hconfirms c).2 hc)
      · exact hext'.grows q (hraises q cov' hcov' c hc)
    · intro t c hc
      rw [hresult] at hc
      split at hc
      · next heq => exact (Finset.mem_union.1 hc).imp_right fun hnew => ⟨heq, (hconfirms c).1 hnew⟩
      · exact .inl hc

/-- A value is staged for the other workers of the states that have a step to its state. -/
theorem stageValue_spec (h : ctx.Ready R S) (hs : s.Fits ctx R) {t : Nat} (ht : t < ctx.stateCount)
    (hvalue : R.InDomain value) (course : Course) :
    ∃ s', (course.predecessors ctx.model t).foldlM (fun s e => do
          let owner := ctx.partition.owner e.target
          if owner = ctx.id then return s else s.stage ctx owner t value) s =
        (.ok s' : Attempt (Search C (Cover C))) ∧
      (∃ staging, s' = { s with staging }) ∧ s'.Fits ctx R ∧ Search.Extends ctx R s s' ∧
      ∀ {j u c}, c ∈ s'.staging.colorsFor R j u ↔ c ∈ s.staging.colorsFor R j u ∨
        u = t ∧ c ∈ R.colors value ∧ j ≠ ctx.id ∧
          ∃ e ∈ course.predecessors ctx.model t, ctx.partition.owner e.target = j := by
  refine foldlM_run (fun (done : List (Transition C)) (s' : Search C (Cover C)) =>
    (∃ staging, s' = { s with staging }) ∧ s'.Fits ctx R ∧ Search.Extends ctx R s s' ∧
    ∀ {j u c}, c ∈ s'.staging.colorsFor R j u ↔ c ∈ s.staging.colorsFor R j u ∨
      u = t ∧ c ∈ R.colors value ∧ j ≠ ctx.id ∧ ∃ e ∈ done, ctx.partition.owner e.target = j)
    ⟨⟨s.staging, rfl⟩, hs, .refl s, by simp⟩ ?_
  rintro done e rest _ hsplit ⟨⟨staging, rfl⟩, hfits, hext, hcolors⟩
  have he : e ∈ course.predecessors ctx.model t := by simp [hsplit]
  have hlast (j : Nat) : (∃ e' ∈ done ++ [e], ctx.partition.owner e'.target = j) ↔
      (∃ e' ∈ done, ctx.partition.owner e'.target = j) ∨ ctx.partition.owner e.target = j := by
    simp [or_and_right, exists_or]
  by_cases howner : ctx.partition.owner e.target = ctx.id
  · refine ⟨_, if_pos howner, ⟨staging, rfl⟩, hfits, hext, ?_⟩
    intro j u c
    rw [hcolors, hlast, howner]
    by_cases hj : j = ctx.id
    · simp only [hj, ne_eq, not_true, false_and]
    · simp only [Ne.symm hj, or_false]
  · have htarget := (h.serves.inDomain_predecessors he).1
    obtain ⟨next, hnext, hnextFits, hnextExt, hnextColors⟩ := hfits.stage_spec
      (h.owner_lt (h.stateCount_eq ▸ htarget)) howner ht hvalue
    refine ⟨_, (if_neg howner).trans hnext, ⟨next, rfl⟩, hnextFits, hext.trans hnextExt, ?_⟩
    intro j u c
    rw [hnextColors, hlast]
    split
    · next heq =>
      obtain ⟨rfl, rfl⟩ := heq
      rw [Finset.mem_union, hcolors]
      tauto
    · next hne =>
      rw [hcolors]
      by_cases hu : u = t
      · have hother : ¬ctx.partition.owner e.target = j := fun heq => hne ⟨heq.symm, hu⟩
        simp only [hother, or_false]
      · simp only [hu, false_and]

theorem everyPath_eq_fixedPoint {weak : Bool} {course : Course} {path reach : StateMap C} {start : Packet C}
    {cover : Cover C} (hstart : seeds ctx weak course path reach = .ok start)
    (hcover : Cover.ofPath ctx course path = .ok cover) :
    everyPath ctx weak course path reach = Search.fixedPoint ctx (everyRule ctx course) cover start := by
  rw [everyPath, hstart, hcover]
  rfl

end Until

namespace Team

open Until

variable {C : Type} {A : Algebra C} {R : Reading A} {M : Model C} {S : Nat → Kripke} {K : Nat}
  (T : Team R M S K) (weak : Bool) (course : Course) (P Q : Nat → Set Nat)

/-- The states where until holds on every path, for each color. -/
abbrev everyHold (S : Nat → Kripke) (weak : Bool) (course : Course) (P Q : Nat → Set Nat)
    (c : Nat) : Set Nat :=
  (S c).hold .all weak course (P c) (Q c)

/-- What is known of the result and the cover of a worker. -/
structure EveryInv (i : Fin K) (result : Accumulator C) (cover : Cover C) : Prop where
  sound : ∀ {t c}, c ∈ result.colorsAt R t → t ∈ everyHold S weak course P Q c
  seeded : ∀ {t c}, (T.ctx i).Owns t → c ∈ R.palette →
    (t ∈ Q c ∨ (weak = true ∧ t ∈ P c ∧ ∀ u, ¬(S c).Leads course t u)) → c ∈ result.colorsAt R t
  keeps : cover.Keeps (T.ctx i) R S course P (everyHold S weak course P Q)
  raises : cover.Raises R result

/-- The plan of the search for every path: a color at a state is owed to the workers of the states with a
step to it, and has been heard when no transition keeps it. -/
def everyPlan : Plan C (Cover C) K where
  rule i := everyRule (T.ctx i) course
  purpose := .tell
  Inv i := T.EveryInv weak course P Q i
  Heard _ _ cover u c := ∀ p, cover.HeardAt R p u c
  Owes t c j u := u = t ∧ ∃ p, (S c).Leads course p t ∧ (T.ctx j).Owns p
  Valid i _ u c := T.owner u = i ∧ c ∈ R.palette ∧ u ∈ everyHold S weak course P Q c

variable {weak course P Q}

/-- A state takes a value of a target into account. -/
theorem notifyState_spec {i : Fin K} {s : Search C (Cover C)}
    (hs : (T.everyPlan weak course P Q).Good T i s) {u : Nat} {value : C} (hvalue : R.InDomain value)
    (hholds : ∀ c ∈ R.colors value, u ∈ everyHold S weak course P Q c) (p : Nat) :
    ∃ s', notifyState (T.ctx i) u value s p = .ok s' ∧ s'.staging = s.staging ∧
      (T.everyPlan weak course P Q).Good T i s' ∧ Search.Extends (T.ctx i) R s s' ∧
      s'.memory.dependents = s.memory.dependents ∧
      (∀ c ∈ R.colors value, s'.memory.HeardAt R p u c) ∧
      ∀ {q v c}, s.memory.HeardAt R q v c →
        s'.memory.HeardAt R q v c := by
  cases hcov : s.memory.coverage[p]? with
  | none =>
    refine ⟨s, by rw [notifyState, hcov]; rfl, rfl, hs, .refl s, rfl, ?_, id⟩
    intro c _ cov hcov'
    rw [hcov] at hcov'
    cases hcov'
  | some cov =>
    have hcovers := hs.inv.keeps.covers hcov
    obtain ⟨next, s', hs', hnext, hafter, hfits, hext, hstaging, hraises, hresult⟩ :=
      Until.notifyState_spec hs.fits hs.inv.raises hcov hcovers.owns hcovers.base_in
        (fun _ => hcovers.edge_in) hvalue u
    obtain ⟨hheard, hkept⟩ := Cover.heardAt_shrink hcov hnext hafter
    have hkeeps := hs.inv.keeps.shrink hcov hholds hnext hafter
    refine ⟨s', hs', hstaging, ⟨hfits, ⟨?_, ?_, hkeeps, hraises⟩, ?_⟩, hext, hafter.dependents_eq, hheard,
      hkept⟩
    · intro t c hc
      obtain hbefore | ⟨rfl, hconfirms⟩ := hresult hc
      · exact hs.inv.sound hbefore
      · exact Kripke.mem_hold_iff.2 (.inr (.inl ((hcovers.shrink hholds hnext).next (T.ready i) hconfirms)))
    · intro t c ht hc hseed
      exact hext.grows t (hs.inv.seeded ht hc hseed)
    · intro j v c hc
      rw [hstaging] at hc
      exact hs.valid hc

/-- All states with a transition to a target take a value of it into account. -/
theorem notify_spec {i : Fin K} {s : Search C (Cover C)}
    (hs : (T.everyPlan weak course P Q).Good T i s) {u : Nat} {value : C} (hvalue : R.InDomain value)
    (hholds : ∀ c ∈ R.colors value, u ∈ everyHold S weak course P Q c) :
    ∃ s', notify (T.ctx i) s u value = .ok s' ∧ (T.everyPlan weak course P Q).Steps T i s s' ∧
      s'.staging = s.staging ∧
      ∀ {c}, c ∈ R.colors value → (T.everyPlan weak course P Q).Heard i s'.result s'.memory u c := by
  have hrun : ∃ s', notify (T.ctx i) s u value = .ok s' ∧
      (T.everyPlan weak course P Q).Steps T i s s' ∧ s'.staging = s.staging ∧
      s'.memory.dependents = s.memory.dependents ∧
      ∀ p ∈ (s.memory.dependents[u]?.getD []).reverse, ∀ c ∈ R.colors value,
        s'.memory.HeardAt R p u c := by
    refine foldlM_run (fun (done : List Nat) (s' : Search C (Cover C)) =>
      (T.everyPlan weak course P Q).Steps T i s s' ∧ s'.staging = s.staging ∧
      s'.memory.dependents = s.memory.dependents ∧
      ∀ p ∈ done, ∀ c ∈ R.colors value, s'.memory.HeardAt R p u c)
      ⟨hs.steps_refl, rfl, rfl, by simp⟩ ?_
    rintro done p rest s' _ ⟨hsteps, hstaging, hdependents, hdone⟩
    obtain ⟨next, hnext, hnextStaging, hgood, hext, hnextDependents, hheard, hkept⟩ :=
      T.notifyState_spec hsteps.good hvalue hholds p
    refine ⟨next, hnext, hsteps.trans ⟨hgood, hext, fun h q => hkept (h q)⟩,
      hnextStaging.trans hstaging, hnextDependents.trans hdependents, ?_⟩
    intro q hq c hc
    rcases List.mem_append.1 hq with hq | hq
    · exact hkept (hdone q hq c hc)
    · cases List.mem_singleton.1 hq
      exact hheard c hc
  obtain ⟨s', hs', hsteps, hstaging, hdependents, hheard⟩ := hrun
  refine ⟨s', hs', hsteps, hstaging, ?_⟩
  intro c hc p cov hcov edge hedge htarget
  -- A state with a transition to the target depends on it, so it was among those told.
  have hdependent := hsteps.good.inv.keeps.dependents hcov edge hedge
  rw [htarget, hdependents] at hdependent
  exact hheard p (List.mem_reverse.2 hdependent) c hc cov hcov edge hedge htarget

theorem everyPlan_sound : (T.everyPlan weak course P Q).Sound T where
  oneOwner := .inr ⟨rfl, fun h => h.1⟩
  propagate {i s t v} hs hv hnonempty := by
    have hcolors : s.result.colorsAt R t = R.colors v := Accumulator.colorsAt_of_get? hv
    have hin : R.InDomain v := hs.fits.result_fits.accepts t v hv
    have hholds : ∀ c ∈ R.colors v, t ∈ everyHold S weak course P Q c := by
      intro c hc
      exact hs.inv.sound (hcolors ▸ hc)
    have howns : (T.ctx i).Owns t := by
      obtain ⟨c, hc⟩ := hnonempty
      exact hs.fits.within (hcolors ▸ hc)
    obtain ⟨_, hstaged, ⟨staging, rfl⟩, hfits, hext, hcolorsFor⟩ :=
      Until.stageValue_spec (T.ready i) hs.fits howns.1 hin course
    have hgood : (T.everyPlan weak course P Q).Good T i { s with staging } := by
      refine ⟨hfits, hs.inv, ?_⟩
      intro j u c hc
      obtain hbefore | ⟨rfl, hc, _⟩ := hcolorsFor.1 hc
      · exact hs.valid hbefore
      · exact ⟨howns.2, R.colors_subset hin hc, hholds c hc⟩
    obtain ⟨s', hs', hsteps, hstaging, hheard⟩ := T.notify_spec hgood hin hholds
    refine ⟨s', bind_eq_ok_iff.2 ⟨_, hstaged, hs'⟩, .trans ⟨hgood, hext, id⟩ hsteps, ?_⟩
    rintro c hc j u ⟨rfl, p, hleads, hp⟩
    refine ⟨fun _ => hheard hc, fun hne => ?_⟩
    obtain ⟨e, he, rfl, _⟩ := T.serves.leads_iff_predecessors.1 hleads
    rw [hstaging]
    exact hcolorsFor.2 (.inr ⟨rfl, hc, fun heq => hne (Fin.ext heq), e, he, hp.2⟩)
  receive {i s u a} hs _ ha hvalid := by
    refine T.notify_spec hs ha fun c hc => ?_
    obtain ⟨_, _, _, hholds⟩ := hvalid c hc
    exact hholds

/-- The workers that search for every path settle, after they have taken their seeds. -/
theorem everyPath_begins {path : Fin K → StateMap C} (hpath : T.Shows P path) {seeds : Fin K → Packet C}
    (hseeds : ∀ i, Gathered R (T.ctx i).Owns (fun s c => (T.ctx i).Owns s ∧ c ∈ R.palette ∧
      (s ∈ Q c ∨ (weak = true ∧ s ∈ P c ∧ ∀ t, ¬(S c).Leads course s t))) (seeds i))
    {cover : Fin K → Cover C} (hcover : ∀ i, (cover i).Tracks (T.ctx i) R course (path i) fun _ => []) :
    ∃ rounds < M.stateCount * A.height + 2, ∃ start ready,
      (T.everyPlan weak course P Q).Settling T rounds start ready ∧
      ∀ i, Search.Begins (T.ctx i) (cover i) (seeds i) (start 0 i) := by
  have hsound : (T.everyPlan weak course P Q).Sound T := T.everyPlan_sound
  refine hsound.fixedPoint_spec cover hseeds ?_
  intro i result hresult
  refine ⟨?_, fun ht hc hseed => (hresult _ _).2 ⟨ht, hc, hseed⟩,
    (hcover i).keeps (T.ready i) (hpath i) (by simp), ?_⟩
  · intro t c hc
    rcases ((hresult t c).1 hc).2.2 with hQ | hdead
    · exact Kripke.mem_hold_iff.2 (.inl hQ)
    · exact Kripke.mem_hold_iff.2 (.inr (.inr hdead))
  · intro p cov hcov c hconfirms
    exact absurd hconfirms (((hcover i).tracks hcov).not_confirms c)

/-- The results of workers that have settled are the least sets that the expansion law allows. -/
theorem everyPlan_lists {rounds : Nat} {start ready : Nat → Fin K → Search C (Cover C)}
    (h : (T.everyPlan weak course P Q).Settling T rounds start ready) :
    T.Lists (everyHold S weak course P Q) fun i => (ready rounds i).result.freeze := by
  have hinv := fun i => (h.last.drained i).good.inv
  refine h.lists (fun i t c hc => (hinv i).sound hc) fun c hc => ?_
  -- The results are a set that the expansion law does not leave.
  refine Kripke.hold_subset ?_ ?_ ?_
  · intro u hu j hj
    exact (hinv j).seeded hj hc (.inl hu)
  · rintro u hu ⟨⟨w, hleads⟩, hall⟩ j hj
    obtain ⟨cov, hcov⟩ := (hinv j).keeps.exists_of hj hc hu hleads
    have hcovers := (hinv j).keeps.covers hcov
    refine (hinv j).raises u cov hcov c ⟨hcovers.base_iff.2 ⟨⟨hc, hu⟩, w, hleads⟩, ?_⟩
    intro edge hedge hmem
    obtain ⟨e, he, htarget, hbound⟩ := hcovers.edge_of hedge
    have hstep : (S c).Leads course u e.target :=
      T.serves.leads_iff_successors.2 ⟨e, he, rfl, hbound hmem⟩
    obtain ⟨k, hk⟩ := T.exists_owns (T.serves.lt_of_leads hstep).2
    exact h.heard (hall _ hstep k hk) ⟨rfl, u, hstep, hj⟩ u cov hcov edge hedge htarget hmem
  · intro hweak u hu hend j hj
    exact (hinv j).seeded hj hc (.inr ⟨hweak, hu, hend⟩)

/-- Together the workers find the states from which every path stays in the one map until it reaches the
other. -/
theorem everyPath_spec {path reach : Fin K → StateMap C} (hpath : T.Shows P path)
    (hreach : T.Shows Q reach) :
    T.Ends (fun i => everyPath (T.ctx i) weak course (path i) (reach i))
      (T.Lists (everyHold S weak course P Q)) := by
  choose seeds hseeds hgathered using fun i => seeds_spec (T.ready i) weak course (hpath i) (hreach i)
  choose cover hcover htracks using fun i => Cover.ofPath_spec course (T.ready i) (hpath i)
  obtain ⟨rounds, hrounds, start, ready, hsettling, hbegins⟩ :=
    T.everyPath_begins hpath hgathered htracks
  rw [funext fun i => everyPath_eq_fixedPoint (hseeds i) (hcover i)]
  exact ⟨_, hsettling.fixedPoint_yields hrounds hbegins, T.everyPlan_lists hsettling⟩

end Team

end ColoredCtl

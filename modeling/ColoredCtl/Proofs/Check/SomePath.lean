import ColoredCtl.Proofs.Check.Saturation

/-!
Until on some path is computed as it is meant.

The seeds of a search are the states where until holds by itself. A color at a state is owed to the
states with a step to it: it has been heard when it appears there, or the path excludes it. So the
results are the least sets that have the seeds and what is owed for them.
-/

namespace ColoredCtl

open Color

variable {C : Type} {A : Algebra C}

namespace Until

section Seeds

variable {ctx : Context C} {R : Reading ctx.algebra} {S : Nat → Kripke} {P Q : Nat → Set Nat}
  {path reach : StateMap C}

/-- The colors of the transitions out of a state, together. -/
theorem outgoing_spec (h : ctx.Ready R S) (course : Course) (s : Nat) :
    ∃ out, ctx.algebra.unionAll ctx.algebra.empty.get
        ((course.successors ctx.model s).map (·.bound)) = .ok out ∧ R.InDomain out ∧
      ∀ c, c ∈ R.colors out ↔ ∃ t, (S c).Leads course s t := by
  obtain ⟨out, hout, hin, hcolors⟩ := R.unionAll_spec R.inDomain_empty
    (l := (course.successors ctx.model s).map (·.bound)) (by
      intro a ha
      obtain ⟨e, he, rfl⟩ := List.mem_map.1 ha
      exact (h.serves.inDomain_successors he).2)
  refine ⟨out, hout, hin, ?_⟩
  intro c
  rw [hcolors, R.colors_empty]
  simp only [h.serves.leads_iff_successors]
  simp

/-- The colors for which paths end at a state. -/
theorem deadlockAt_spec (h : ctx.Ready R S) (course : Course) (hpath : ctx.Shows R P path) (s : Nat) :
    ∃ found, (do
        match ← path.get? ctx.algebra s with
        | none => return none
        | some value =>
          let bounds := (course.successors ctx.model s).map (·.bound)
          let outgoing ← ctx.algebra.unionAll ctx.algebra.empty.get bounds
          let dead ← ctx.algebra.diff value outgoing
          return (← ctx.algebra.nonempty? dead).map (s, ·) : Except Misuse (Option (Nat × C))) =
        .ok found ∧ Finds R s (fun c => (ctx.Owns s ∧ c ∈ R.palette ∧ s ∈ P c) ∧
          ∀ t, ¬(S c).Leads course s t) found := by
  obtain ⟨value, hvalue, haccepts, hcolors⟩ := hpath.get?_spec s
  simp only [← hcolors]
  cases value with
  | none =>
    refine ⟨none, by rw [hvalue]; rfl, .of_value (v := none) R.accepts_none fun c => by simp⟩
  | some a =>
    obtain ⟨out, hout, houtIn, houtColors⟩ := outgoing_spec h course s
    obtain ⟨dead, hdead, hdeadIn, hdeadColors⟩ := R.diff_spec (haccepts a rfl) houtIn
    obtain ⟨left, hleft, hleftAccepts, hleftColors, _⟩ := R.nonempty?_spec hdeadIn
    refine ⟨left.map (s, ·), ?_, .of_value hleftAccepts fun c => ?_⟩
    · simp only [hvalue, hout, hdead, hleft, ok_bind]
      rfl
    · rw [hleftColors, hdeadColors, Finset.mem_sdiff, houtColors, not_exists, R.colorsOf_some]

/-- The states of a map with the colors for which no step leads on. -/
theorem deadlocks_spec (h : ctx.Ready R S) (course : Course) (hpath : ctx.Shows R P path) :
    ∃ entries, deadlocks ctx course path = .ok entries ∧
      Gathered R ctx.Owns (fun s c => (ctx.Owns s ∧ c ∈ R.palette ∧ s ∈ P c) ∧
        ∀ t, ¬(S c).Leads course s t) entries := by
  obtain ⟨states, hstates, horder, hwithin, hmem⟩ := hpath.states_spec h.stateCount_le
  obtain ⟨entries, hentries, hlisted⟩ := select_spec (k := fun s => s) horder fun s _ =>
    deadlockAt_spec h course hpath s
  refine ⟨entries, ?_, hlisted.toGathered.congr ?_ ?_⟩
  · rw [deadlocks, hstates, ok_bind]
    exact hentries
  · rintro _ ⟨s, hs, rfl⟩
    exact (hwithin s hs).1
  · intro s c
    constructor
    · rintro ⟨_, _, rfl, hc⟩
      exact hc
    · rintro ⟨hc, hend⟩
      exact ⟨s, hmem hc, rfl, hc, hend⟩

/-- Until holds from the start where the goal does and, in the weak form, where paths end. -/
theorem seeds_spec (h : ctx.Ready R S) (weak : Bool) (course : Course) (hpath : ctx.Shows R P path)
    (hreach : ctx.Shows R Q reach) :
    ∃ entries, seeds ctx weak course path reach = .ok entries ∧
      Gathered R ctx.Owns (fun s c => ctx.Owns s ∧ c ∈ R.palette ∧
        (s ∈ Q c ∨ (weak = true ∧ s ∈ P c ∧ ∀ t, ¬(S c).Leads course s t))) entries := by
  obtain ⟨reached, hreached, hlisted⟩ := hreach.entries_spec h.stateCount_le
  cases weak with
  | false =>
    refine ⟨reached, ?_, hlisted.toGathered.congr (fun s hs => hs) (by simp)⟩
    rw [seeds, hreached, ok_bind]
    rfl
  | true =>
    obtain ⟨dead, hdead, hgathered⟩ := deadlocks_spec h course hpath
    refine ⟨reached ++ dead, ?_, ?_, ?_, ?_⟩
    · rw [seeds, hreached, ok_bind, if_pos rfl, hdead, ok_bind]
      rfl
    · intro s a hsa
      rcases List.mem_append.1 hsa with hsa | hsa
      · exact hlisted.within hsa
      · exact hgathered.within hsa
    · intro s a hsa
      rcases List.mem_append.1 hsa with hsa | hsa
      · exact hlisted.inDomain hsa
      · exact hgathered.inDomain hsa
    · intro s c
      simp only [List.mem_append, or_and_right, exists_or, hlisted.mem_iff, hgathered.mem_iff]
      tauto

theorem gathered_of_shuffles (h : ctx.Ready R S) {weak : Bool} {course : Course} (hpath : ctx.Shows R P path)
    (hreach : ctx.Shows R Q reach) {start : Packet C}
    (hstart : Shuffles (seeds ctx weak course path reach) start) :
    Gathered R ctx.Owns (fun s c => ctx.Owns s ∧ c ∈ R.palette ∧
      (s ∈ Q c ∨ (weak = true ∧ s ∈ P c ∧ ∀ t, ¬(S c).Leads course s t))) start := by
  obtain ⟨listed, hlisted, hperm⟩ := hstart
  obtain ⟨entries, hentries, hgathered⟩ := seeds_spec h weak course hpath hreach
  cases hlisted.symm.trans hentries
  exact hgathered.perm hperm

theorem somePath_eq_fixedPoint {weak : Bool} {course : Course} {start : Packet C}
    (hstart : seeds ctx weak course path reach = .ok start) :
    somePath ctx weak course path reach = Search.fixedPoint ctx (someRule ctx course path) () start := by
  rw [somePath, hstart]
  rfl

end Seeds

end Until

namespace Team

variable {R : Reading A} {M : Model C} {S : Nat → Kripke} {K : Nat} (T : Team R M S K)
  (weak : Bool) (course : Course) (P Q : Nat → Set Nat) (path : Fin K → StateMap C)

/-- The plan of the search for some path: a color at a state is owed to the states with a step to it,
and has been heard when it appears there or the path excludes it. -/
def somePlan : Plan C Unit K where
  rule i := Until.someRule (T.ctx i) course (path i)
  purpose := .push
  Inv i result _ := (∀ t c, c ∈ result.colorsAt R t → t ∈ (S c).hold .some weak course (P c) (Q c)) ∧
    ∀ t c, (T.ctx i).Owns t → c ∈ R.palette →
      (t ∈ Q c ∨ (weak = true ∧ t ∈ P c ∧ ∀ u, ¬(S c).Leads course t u)) → c ∈ result.colorsAt R t
  Heard i result _ u c := (T.ctx i).Owns u → u ∈ P c → c ∈ result.colorsAt R u
  Owes t c j u := (S c).Leads course u t ∧ (T.ctx j).Owns u
  Valid _ j u c := T.owner u = j ∧ c ∈ R.palette ∧
    ∃ t, (S c).Leads course u t ∧ t ∈ (S c).hold .some weak course (P c) (Q c)

variable {weak course P Q path}

/-- A value that a state is told about appears there as far as the path allows. -/
theorem offer_spec (hpath : T.Shows P path) {i : Fin K} {s : Search C Unit}
    (hs : (T.somePlan weak course P Q path).Good T i s) {u : Nat} {value : C}
    (hvalue : R.InDomain value)
    (hvalid : ∀ c ∈ R.colors value, ∃ t, (S c).Leads course u t ∧
      t ∈ (S c).hold .some weak course (P c) (Q c)) :
    ∃ s', Until.offer (T.ctx i) (path i) s u value = .ok s' ∧
      (T.somePlan weak course P Q path).Steps T i s s' ∧ s'.staging = s.staging ∧
      ∀ {c}, c ∈ R.colors value →
        (T.somePlan weak course P Q path).Heard i s'.result s'.memory u c := by
  obtain ⟨allowed, hallowed, haccepts, hcolors⟩ := (hpath i).get?_spec u
  cases allowed with
  | none =>
    refine ⟨s, by rw [Until.offer, hallowed]; rfl, hs.steps_refl, rfl, ?_⟩
    intro c hc howns hP
    have hin := (hcolors c).2 ⟨howns, R.colors_subset hvalue hc, hP⟩
    cases hin
  | some allowed =>
    obtain ⟨both, hboth, hbothIn, hbothColors⟩ := R.inter_spec hvalue (haccepts allowed rfl)
    have howns : (T.ctx i).Owns u := (hpath i).within ((hpath i).fits.contains_iff.2 ⟨_, hallowed⟩)
    obtain ⟨s', hs', hfits, hstaging, hmemory, hext, hresult⟩ := hs.fits.raise_spec howns hbothIn
    refine ⟨s', ?_, ⟨⟨hfits, ⟨?_, ?_⟩, ?_⟩, hext, ?_⟩, hstaging, ?_⟩
    · simp only [Until.offer, hallowed, liftM_ok, ok_bind, hboth]
      exact hs'
    · intro t c hc
      rw [hresult] at hc
      split at hc
      · next heq =>
        subst heq
        rcases Finset.mem_union.1 hc with hc | hc
        · exact hs.inv.1 t c hc
        · rw [hbothColors, Finset.mem_inter, ← R.colorsOf_some allowed, hcolors] at hc
          obtain ⟨w, hleads, hw⟩ := hvalid c hc.1
          exact Kripke.mem_hold_iff.2 (.inr (.inl ⟨hc.2.2.2, w, hleads, hw⟩))
      · exact hs.inv.1 t c hc
    · intro t c ht hc hseed
      exact hext.grows t (hs.inv.2 t c ht hc hseed)
    · intro j v c hc
      rw [hstaging] at hc
      exact hs.valid hc
    · intro v c hheard hv hP
      exact hext.grows v (hheard hv hP)
    · intro c hc _ hP
      have hboth : c ∈ R.colors both := by
        rw [hbothColors, Finset.mem_inter, ← R.colorsOf_some allowed, hcolors]
        exact ⟨hc, howns, R.colors_subset hvalue hc, hP⟩
      rw [hresult, if_pos rfl]
      exact Finset.mem_union_right _ hboth

/-- A value is passed on along a transition: it is heard by the worker itself, or staged. -/
theorem passOn_spec (hpath : T.Shows P path) {i : Fin K} {s : Search C Unit}
    (hs : (T.somePlan weak course P Q path).Good T i s) {t : Nat} {value : C}
    (hvalue : R.InDomain value)
    (hhold : ∀ c ∈ R.colors value, t ∈ (S c).hold .some weak course (P c) (Q c))
    {e : Transition C} (he : e ∈ course.predecessors M t) :
    ∃ s', Until.passOn (T.ctx i) (path i) value s e = .ok s' ∧
      (T.somePlan weak course P Q path).Steps T i s s' ∧
      ∀ {c}, c ∈ R.colors value → c ∈ R.colors e.bound →
        (T.owner e.target = i →
          (T.somePlan weak course P Q path).Heard i s'.result s'.memory e.target c) ∧
        (T.owner e.target ≠ i → c ∈ s'.staging.colorsFor R (T.owner e.target) e.target) := by
  obtain ⟨htarget, hbound⟩ := T.serves.inDomain_predecessors he
  obtain ⟨pushed, hpushed, hpushedIn, hpushedColors⟩ := R.inter_spec hvalue hbound
  obtain ⟨found, hfound, hiff⟩ := R.nonempty_spec hpushedIn
  have hleads : ∀ c ∈ R.colors pushed, ∃ t, (S c).Leads course e.target t ∧
      t ∈ (S c).hold .some weak course (P c) (Q c) := by
    intro c hc
    rw [hpushedColors, Finset.mem_inter] at hc
    exact ⟨t, T.serves.leads_iff_predecessors.2 ⟨e, he, rfl, hc.2⟩, hhold c hc.1⟩
  have hunfold : Until.passOn (T.ctx i) (path i) value s e =
      if found then
        if T.owner e.target = i then Until.offer (T.ctx i) (path i) s e.target pushed
        else s.stage (T.ctx i) (T.owner e.target) e.target pushed
      else .ok s := by
    simp only [Until.passOn, hpushed, Operations.maybeNonempty, hfound, liftM_ok, ok_bind]
    rfl
  rw [hunfold]
  cases found with
  | false =>
    refine ⟨s, rfl, hs.steps_refl, ?_⟩
    intro c hc hcbound
    have hmem : c ∈ R.colors pushed := by
      rw [hpushedColors]
      exact Finset.mem_inter.2 ⟨hc, hcbound⟩
    exact absurd (hiff.2 ⟨c, hmem⟩) (by simp)
  | true =>
    rw [if_pos rfl]
    by_cases howner : T.owner e.target = i
    · rw [if_pos howner]
      obtain ⟨s', hs', hsteps, _, hheard⟩ := T.offer_spec hpath hs hpushedIn hleads
      refine ⟨s', hs', hsteps, fun hc hcbound => ⟨fun _ => hheard ?_, fun hne => absurd howner hne⟩⟩
      rw [hpushedColors]
      exact Finset.mem_inter.2 ⟨hc, hcbound⟩
    · rw [if_neg howner]
      obtain ⟨staging, hstage, hfits, hext, hstaged⟩ := hs.fits.stage_spec
        ((T.ready i).owner_lt htarget) howner htarget hpushedIn
      refine ⟨_, hstage, ⟨⟨hfits, hs.inv, ?_⟩, hext, id⟩,
        fun hc hcbound => ⟨fun heq => absurd heq howner, fun _ => ?_⟩⟩
      · intro j u c hc
        rw [hstaged] at hc
        split at hc
        · next heq =>
          rcases Finset.mem_union.1 hc with hbefore | hnew
          · exact hs.valid hbefore
          · obtain ⟨rfl, rfl⟩ := heq
            exact ⟨rfl, R.colors_subset hpushedIn hnew, hleads c hnew⟩
        · exact hs.valid hc
      · rw [hstaged, if_pos ⟨rfl, rfl⟩, hpushedColors]
        exact Finset.mem_union_right _ (Finset.mem_inter.2 ⟨hc, hcbound⟩)

theorem somePlan_sound (hpath : T.Shows P path) : (T.somePlan weak course P Q path).Sound T where
  oneOwner := .inl fun h => h.1
  propagate {i s t v} hs hv _ := by
    have hcolors : s.result.colorsAt R t = R.colors v := Accumulator.colorsAt_of_get? hv
    have hin : R.InDomain v := hs.fits.result_fits.accepts t v hv
    have hhold : ∀ c ∈ R.colors v, t ∈ (S c).hold .some weak course (P c) (Q c) := by
      intro c hc
      exact hs.inv.1 t c (hcolors ▸ hc)
    have hrun : ∃ s', (course.predecessors M t).foldlM (Until.passOn (T.ctx i) (path i) v) s = .ok s' ∧
        (T.somePlan weak course P Q path).Steps T i s s' ∧
        ∀ e ∈ course.predecessors M t, ∀ {c}, c ∈ R.colors v → c ∈ R.colors e.bound →
          (T.owner e.target = i →
            (T.somePlan weak course P Q path).Heard i s'.result s'.memory e.target c) ∧
          (T.owner e.target ≠ i → c ∈ s'.staging.colorsFor R (T.owner e.target) e.target) := by
      refine foldlM_run (fun (done : List (Transition C)) s' =>
        (T.somePlan weak course P Q path).Steps T i s s' ∧
        ∀ e ∈ done, ∀ {c}, c ∈ R.colors v → c ∈ R.colors e.bound →
          (T.owner e.target = i →
            (T.somePlan weak course P Q path).Heard i s'.result s'.memory e.target c) ∧
          (T.owner e.target ≠ i → c ∈ s'.staging.colorsFor R (T.owner e.target) e.target))
        ⟨hs.steps_refl, by simp⟩ ?_
      rintro done e rest s' hsplit ⟨hsteps, hdone⟩
      obtain ⟨next, hnext, hnextSteps, hnextOwed⟩ :=
        T.passOn_spec hpath hsteps.good hin hhold (e := e) (by simp [hsplit])
      refine ⟨next, hnext, hsteps.trans hnextSteps, ?_⟩
      intro e' he' c hc hcbound
      rcases List.mem_append.1 he' with he' | he'
      · obtain ⟨hlocal, hremote⟩ := hdone e' he' hc hcbound
        exact ⟨fun heq => hnextSteps.heard (hlocal heq),
          fun hne => hnextSteps.ext.staged _ _ (hremote hne)⟩
      · cases List.mem_singleton.1 he'
        exact hnextOwed hc hcbound
    obtain ⟨s', hs', hsteps, howed⟩ := hrun
    refine ⟨s', hs', hsteps, ?_⟩
    rintro c hc j u ⟨hleads, howns⟩
    obtain ⟨e, he, rfl, hcbound⟩ := T.serves.leads_iff_predecessors.1 hleads
    obtain ⟨hlocal, hremote⟩ := howed e he hc hcbound
    refine ⟨fun heq => hlocal (heq ▸ howns.2), fun hne => ?_⟩
    have howner : T.owner e.target = j := howns.2
    rw [← howner]
    exact hremote fun heq => hne (Fin.ext (howner.symm.trans heq))
  receive {i s u a} hs hu ha hvalid := by
    refine T.offer_spec hpath hs ha fun c hc => ?_
    obtain ⟨j, _, _, hleads⟩ := hvalid c hc
    exact hleads

/-- The workers that search for some path settle, after they have taken their seeds. -/
theorem somePath_begins {weak : Bool} {course : Course} (hpath : T.Shows P path) {seeds : Fin K → Packet C}
    (hseeds : ∀ i, Gathered R (T.ctx i).Owns (fun s c => (T.ctx i).Owns s ∧ c ∈ R.palette ∧
      (s ∈ Q c ∨ (weak = true ∧ s ∈ P c ∧ ∀ t, ¬(S c).Leads course s t))) (seeds i)) :
    ∃ rounds < M.stateCount * A.height + 2, ∃ start ready,
      (T.somePlan weak course P Q path).Settling T rounds start ready ∧
      ∀ i, Search.Begins (T.ctx i) () (seeds i) (start 0 i) := by
  have hsound : (T.somePlan weak course P Q path).Sound T := T.somePlan_sound hpath
  refine hsound.fixedPoint_spec (fun _ => ()) hseeds ?_
  intro i result hresult
  refine ⟨fun t c hc => ?_, fun t c ht hc hseed => (hresult t c).2 ⟨ht, hc, hseed⟩⟩
  rcases ((hresult t c).1 hc).2.2 with hQ | hdead
  · exact Kripke.mem_hold_iff.2 (.inl hQ)
  · exact Kripke.mem_hold_iff.2 (.inr (.inr hdead))

/-- The results of workers that have settled are the least sets that the expansion law allows. -/
theorem somePlan_lists {rounds : Nat} {start ready : Nat → Fin K → Search C Unit}
    (h : (T.somePlan weak course P Q path).Settling T rounds start ready) :
    T.Lists (fun c => (S c).hold .some weak course (P c) (Q c))
      fun i => (ready rounds i).result.freeze := by
  have hinv := fun i => (h.last.drained i).good.inv
  refine h.lists (fun i t c hc => (hinv i).1 t c hc) fun c hc => ?_
  -- The results are a set that the expansion law does not leave.
  refine Kripke.hold_subset ?_ ?_ ?_
  · intro u hu j hj
    exact (hinv j).2 u c hj hc (.inl hu)
  · rintro u hu ⟨w, hleads, hw⟩ j hj
    obtain ⟨k, hk⟩ := T.exists_owns (T.serves.lt_of_leads hleads).2
    exact h.heard (hw k hk) ⟨hleads, hj⟩ hj hu
  · intro hweak u hu hend j hj
    exact (hinv j).2 u c hj hc (.inr ⟨hweak, hu, hend⟩)

/-- Together the workers find the states from which some path stays in the one map until it reaches the
other. -/
theorem somePath_spec {reach : Fin K → StateMap C} (hpath : T.Shows P path) (hreach : T.Shows Q reach) :
    T.EndsBy .push (fun i => Until.somePath (T.ctx i) weak course (path i) (reach i))
      (T.Lists fun c => (S c).hold .some weak course (P c) (Q c)) := by
  choose seeds hseeds hgathered using
    fun i => Until.seeds_spec (T.ready i) weak course (hpath i) (hreach i)
  obtain ⟨rounds, hrounds, start, ready, hsettling, hbegins⟩ := T.somePath_begins hpath hgathered
  rw [funext fun i => Until.somePath_eq_fixedPoint (hseeds i)]
  exact ⟨_, hsettling.fixedPoint_yields hrounds hbegins, T.somePlan_lists hsettling⟩

end Team

end ColoredCtl

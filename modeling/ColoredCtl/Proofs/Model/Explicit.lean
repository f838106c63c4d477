import ColoredCtl.Proofs.Semantics
import ColoredCtl.Proofs.State.Selection

namespace ColoredCtl

open Color

variable {C : Type} {A : Algebra C}

/-- The model has, for each color, the steps and the atoms of a structure. -/
structure Model.Serves (M : Model C) (R : Reading A) (S : Nat → Kripke) : Prop where
  stateCount_le : M.stateCount ≤ Capacity.stateLimit
  stateCount_eq : ∀ c, (S c).stateCount = M.stateCount
  target_lt : ∀ {s forward e}, e ∈ M.successors s forward → e.target < M.stateCount
  inDomain : ∀ {s forward e}, e ∈ M.successors s forward → R.InDomain e.bound
  step_iff : ∀ {c label s t} forward,
    (if forward = true then (S c).Step label s t else (S c).Step label t s) ↔
      ∃ e ∈ M.successors s forward, e.target = t ∧ e.label = label ∧ c ∈ R.colors e.bound
  atom_spec : ∀ {a}, M.checkAtom a = .ok () → ∃ m, M.evalAtom a = .ok m ∧
    m.Shows R M.stateCount (· < M.stateCount)
      fun s c => s < M.stateCount ∧ c ∈ R.palette ∧ (S c).Atom a s

namespace Model.Serves

variable {M : Model C} {R : Reading A} {S : Nat → Kripke}

/-- Where transitions tell the steps between two states, those that a course may follow tell its steps. -/
theorem leads_iff_filter {K : Kripke} {edges : List (Transition C)} {course : Course} {c s t other : Nat}
    (hstep : ∀ label, (if course.forward = true then K.Step label s t else K.Step label t s) ↔
      ∃ e ∈ edges, e.target = other ∧ e.label = label ∧ c ∈ R.colors e.bound) :
    K.Leads course s t ↔ ∃ e ∈ edges.filter fun e => course.direction.accepts e.label,
      e.target = other ∧ c ∈ R.colors e.bound := by
  simp only [Kripke.Leads, hstep, List.mem_filter]
  constructor
  · rintro ⟨label, haccepts, e, he, htarget, rfl, hc⟩
    exact ⟨e, ⟨he, haccepts⟩, htarget, hc⟩
  · rintro ⟨e, ⟨he, haccepts⟩, htarget, hc⟩
    exact ⟨e.label, haccepts, e, he, htarget, rfl, hc⟩

/-- The steps that a course may follow, found from where they start. -/
theorem leads_iff_successors (h : M.Serves R S) {course : Course} {c s t : Nat} :
    (S c).Leads course s t ↔ ∃ e ∈ course.successors M s, e.target = t ∧ c ∈ R.colors e.bound :=
  leads_iff_filter fun _ => h.step_iff course.forward

/-- The steps that a course may follow, found from where they end. -/
theorem leads_iff_predecessors (h : M.Serves R S) {course : Course} {c s t : Nat} :
    (S c).Leads course s t ↔
      ∃ e ∈ course.predecessors M t, e.target = s ∧ c ∈ R.colors e.bound := by
  refine leads_iff_filter fun label => ?_
  rw [Model.predecessors, ← h.step_iff (!course.forward)]
  cases course.forward <;> simp

theorem inDomain_successors (h : M.Serves R S) {course : Course} {s : Nat} {e : Transition C}
    (he : e ∈ course.successors M s) : e.target < M.stateCount ∧ R.InDomain e.bound := by
  have hmem := (List.mem_filter.1 he).1
  exact ⟨h.target_lt hmem, h.inDomain hmem⟩

theorem inDomain_predecessors (h : M.Serves R S) {course : Course} {s : Nat} {e : Transition C}
    (he : e ∈ course.predecessors M s) : e.target < M.stateCount ∧ R.InDomain e.bound := by
  have hmem := (List.mem_filter.1 he).1
  exact ⟨h.target_lt hmem, h.inDomain hmem⟩

/-- Only colors of the palette have steps. -/
theorem mem_palette_of_leads (h : M.Serves R S) {course : Course} {c s t : Nat}
    (hleads : (S c).Leads course s t) : c ∈ R.palette := by
  obtain ⟨e, he, _, hc⟩ := h.leads_iff_successors.1 hleads
  exact R.colors_subset (h.inDomain_successors he).2 hc

/-- Steps lead from states to states. -/
theorem lt_of_leads (h : M.Serves R S) {course : Course} {c s t : Nat}
    (hleads : (S c).Leads course s t) : s < M.stateCount ∧ t < M.stateCount := by
  constructor
  · obtain ⟨e, he, rfl, _⟩ := h.leads_iff_predecessors.1 hleads
    exact (h.inDomain_predecessors he).1
  · obtain ⟨e, he, rfl, _⟩ := h.leads_iff_successors.1 hleads
    exact (h.inDomain_successors he).1

end Model.Serves

namespace ExplicitModel

/-- What the checks of a build leave: edges between states of the space, and one value for each state
and variable. -/
structure Proper (M : ExplicitModel C) : Prop where
  stateCount_le : M.stateCount ≤ Capacity.stateLimit
  source_lt : ∀ e ∈ M.edges, e.source < M.stateCount
  target_lt : ∀ e ∈ M.edges, e.target < M.stateCount
  length_eq : ∀ name values, M.definitions.lookup name = some values → values.length = M.stateCount

namespace Builder

variable {b : Builder C} {M : ExplicitModel C} {n : Nat}

theorem checkState_eq_ok_iff {state : Nat} : checkState n state = .ok () ↔ state < n :=
  ite_eq_ok_iff

theorem checkVariable_eq_ok_iff {definition : String × List Binary64} :
    checkVariable n definition = .ok () ↔ definition.2.length = n :=
  ite_eq_ok_iff

/-- An edge passes when both of its ends are states and the dimension of its move is allowed. -/
theorem checkEdge_eq_ok_iff {e : Edge C} :
    b.checkEdge e = .ok () ↔ e.source < b.stateCount ∧ e.target < b.stateCount ∧
      ∀ name facet, e.label = .move name facet → checkName b.dimensions name = .ok () := by
  rw [← checkState_eq_ok_iff, ← checkState_eq_ok_iff]
  constructor
  · intro h
    obtain ⟨⟨⟩, hsource, h⟩ := bind_eq_ok_iff.1 h
    obtain ⟨⟨⟩, htarget, h⟩ := bind_eq_ok_iff.1 h
    refine ⟨hsource, htarget, fun name facet hlabel => ?_⟩
    rw [hlabel] at h
    exact h
  · rintro ⟨hsource, htarget, hname⟩
    refine bind_eq_ok_iff.2 ⟨(), hsource, bind_eq_ok_iff.2 ⟨(), htarget, ?_⟩⟩
    cases hlabel : e.label with
    | loop => rfl
    | move name facet => exact hname name facet hlabel

/-- A build succeeds when there is room for the states and every variable and every edge passes. -/
theorem build_eq_ok_iff : b.build = .ok M ↔
    (∀ definition ∈ b.definitions, definition.2.length = b.stateCount) ∧
      b.stateCount ≤ Capacity.stateLimit ∧ (∀ e ∈ b.edges.toList, b.checkEdge e = .ok ()) ∧
      M = ⟨b.stateCount, b.edges.toList, b.definitions, b.dimensions⟩ := by
  simp only [← checkVariable_eq_ok_iff, ← forM_eq_ok_iff, Capacity.stateLimit, ← Capacity.reserve_eq_ok_iff]
  constructor
  · intro h
    obtain ⟨⟨⟩, hvalues, h⟩ := bind_eq_ok_iff.1 h
    obtain ⟨⟨⟩, hreserve, h⟩ := bind_eq_ok_iff.1 h
    obtain ⟨⟨⟩, hedges, h⟩ := bind_eq_ok_iff.1 h
    cases h
    exact ⟨lift_eq_ok_iff.1 hvalues, liftM_eq_ok_iff.1 hreserve, lift_eq_ok_iff.1 hedges, rfl⟩
  · rintro ⟨hvalues, hreserve, hedges, rfl⟩
    rw [build, hvalues, lift_ok, ok_bind, hreserve, liftM_ok, ok_bind, hedges, lift_ok, ok_bind]
    rfl

end Builder

theorem proper_of_build {b : Builder C} {M : ExplicitModel C} (h : b.build = .ok M) : M.Proper := by
  obtain ⟨hvalues, hlimit, hedges, rfl⟩ := Builder.build_eq_ok_iff.1 h
  have hends := fun e he => Builder.checkEdge_eq_ok_iff.1 (hedges e he)
  refine ⟨hlimit, fun e he => (hends e he).1, fun e he => (hends e he).2.1, ?_⟩
  intro name values hlookup
  obtain ⟨before, after, hdefinitions, _⟩ := List.lookup_eq_some_iff.1 hlookup
  exact hvalues (name, values) (by
    simp only at hdefinitions
    simp [hdefinitions])

theorem mem_transitionsAt {M : ExplicitModel C} {forward : Bool} {s : Nat} {t : Transition C} :
    t ∈ M.transitionsAt forward s ↔ ∃ e ∈ M.edges, e.view forward = (s, t) := by
  rw [transitionsAt, List.mem_filterMap]
  constructor
  · rintro ⟨e, he, hview⟩
    split at hview
    · next hs =>
      cases hview
      exact ⟨e, he, by rw [← hs]⟩
    · cases hview
  · rintro ⟨e, he, hview⟩
    exact ⟨e, he, by rw [hview, if_pos rfl]⟩

/-- Both ends of an edge are states. -/
theorem Proper.view_lt {M : ExplicitModel C} (hM : M.Proper) {e : Edge C} (he : e ∈ M.edges)
    (forward : Bool) :
    (e.view forward).1 < M.stateCount ∧ (e.view forward).2.target < M.stateCount := by
  cases forward with
  | false => exact ⟨hM.target_lt e he, hM.source_lt e he⟩
  | true => exact ⟨hM.source_lt e he, hM.target_lt e he⟩

/-- The successors of a state, from the list of edges. -/
theorem Proper.successors_eq {M : ExplicitModel C} (hM : M.Proper) (s : Nat) (forward : Bool) :
    (M.toModel A).successors s forward = M.transitionsAt forward s := by
  have hrow : (M.toModel A).successors s forward = ((M.rows forward)[s]?).getD [] := by
    cases forward <;> rfl
  rw [hrow, getElem?_rows]
  by_cases hs : s < M.stateCount
  · rw [if_pos hs, Option.getD_some]
  · rw [if_neg hs, Option.getD_none, eq_comm, List.eq_nil_iff_forall_not_mem]
    intro t ht
    obtain ⟨e, he, hview⟩ := mem_transitionsAt.1 ht
    have hlt := (hM.view_lt he forward).1
    rw [hview] at hlt
    exact hs hlt

theorem Proper.mem_successors {M : ExplicitModel C} (hM : M.Proper) {forward : Bool} {s : Nat}
    {t : Transition C} :
    t ∈ (M.toModel A).successors s forward ↔ ∃ e ∈ M.edges, e.view forward = (s, t) := by
  rw [hM.successors_eq, mem_transitionsAt]

theorem Proper.target_lt_of_mem_successors {M : ExplicitModel C} (hM : M.Proper) {forward : Bool}
    {s : Nat} {t : Transition C} (ht : t ∈ (M.toModel A).successors s forward) :
    t.target < M.stateCount := by
  obtain ⟨e, he, hview⟩ := hM.mem_successors.1 ht
  have hlt := (hM.view_lt he forward).2
  rw [hview] at hlt
  exact hlt

section Atoms

variable {R : Reading A}

/-- The colors of the moves along a dimension are those in the bound of one of them. -/
theorem moveColors_spec {ts : List (Transition C)} (hts : ∀ t ∈ ts, R.InDomain t.bound)
    (name : String) (facet : Facet) :
    ∃ value, moveColors A name facet ts = .ok value ∧ R.Accepts value ∧
      ∀ c, c ∈ R.colorsOf value ↔ ∃ t ∈ ts, t.label = .move name facet ∧ c ∈ R.colors t.bound := by
  have hmoves : ∀ t ∈ ts.filter (·.label = .move name facet), R.InDomain t.bound :=
    fun t ht => hts t (List.mem_filter.1 ht).1
  have hrun : ∃ value, moveColors A name facet ts = .ok value ∧ R.Accepts value ∧
      ∀ c, c ∈ R.colorsOf value ↔
        ∃ t ∈ ts.filter (·.label = .move name facet), c ∈ R.colors t.bound := by
    refine foldlM_run (fun (done : List (Transition C)) value => R.Accepts value ∧
      ∀ c, c ∈ R.colorsOf value ↔ ∃ t ∈ done, c ∈ R.colors t.bound) ⟨R.accepts_none, by simp⟩ ?_
    intro done t rest value hsplit ⟨haccepts, hcolors⟩
    have ht : R.InDomain t.bound := hmoves t (by simp [hsplit])
    obtain ⟨next, hnext, hnextAccepts, hnextColors, _⟩ :=
      R.unionOpt_spec haccepts (R.accepts_some ht)
    refine ⟨next, hnext, hnextAccepts, ?_⟩
    intro c
    simp [hnextColors, hcolors, or_and_right, exists_or]
  obtain ⟨value, hvalue, haccepts, hcolors⟩ := hrun
  refine ⟨value, hvalue, haccepts, ?_⟩
  intro c
  simp [hcolors, and_assoc]

/-- What one row contributes to the map of an atom. -/
def rowEntry (A : Algebra C) (name : String) (facet : Facet) (row : List (Transition C) × Nat) :
    Except (Failure ModelError) (Option (Nat × C)) := do
  match ← moveColors A name facet row.1 with
  | none => return none
  | some value => if ← A.nonempty value then return some (row.2, value) else return none

theorem evalTransition_eq (M : ExplicitModel C) (forward : Bool) (name : String) (facet : Facet) :
    M.evalTransition A (M.rows forward) name facet = (do
      Failure.lift (Builder.checkName M.dimensions name)
      return StateMap.ofEntries
        (← (M.rows forward).toList.zipIdx.filterMapM (rowEntry A name facet)) M.stateCount) :=
  rfl

theorem zipIdx_rows (M : ExplicitModel C) (forward : Bool) :
    (M.rows forward).toList.zipIdx =
      (List.range M.stateCount).map fun s => (M.transitionsAt forward s, s) := by
  apply List.ext_getElem?
  intro s
  rw [List.getElem?_zipIdx, Array.getElem?_toList, getElem?_rows]
  by_cases hs : s < M.stateCount <;> simp [hs]

/-- A row contributes an entry with the colors of its moves, if there are any. -/
theorem rowEntry_spec {M : ExplicitModel C} (hbounds : ∀ e ∈ M.edges, R.InDomain e.bound)
    (forward : Bool) (name : String) (facet : Facet) (s : Nat) :
    ∃ found, rowEntry A name facet (M.transitionsAt forward s, s) = .ok found ∧
      Finds R s (fun c => ∃ e ∈ M.edges, (e.view forward).1 = s ∧ e.label = .move name facet ∧
        c ∈ R.colors e.bound) found := by
  have hview : ∀ e : Edge C,
      (e.view forward).2.label = e.label ∧ (e.view forward).2.bound = e.bound := by
    intro e
    cases forward <;> exact ⟨rfl, rfl⟩
  have hin : ∀ t ∈ M.transitionsAt forward s, R.InDomain t.bound := by
    intro t ht
    obtain ⟨e, he, heq⟩ := mem_transitionsAt.1 ht
    have hin := hbounds e he
    rw [← (hview e).2, heq] at hin
    exact hin
  have hmoves : ∀ c, (∃ t ∈ M.transitionsAt forward s, t.label = .move name facet ∧
      c ∈ R.colors t.bound) ↔ ∃ e ∈ M.edges, (e.view forward).1 = s ∧ e.label = .move name facet ∧
        c ∈ R.colors e.bound := by
    intro c
    constructor
    · rintro ⟨t, ht, hlabel, hc⟩
      obtain ⟨e, he, heq⟩ := mem_transitionsAt.1 ht
      obtain ⟨hlabelEq, hboundEq⟩ := hview e
      rw [heq] at hlabelEq hboundEq
      exact ⟨e, he, by rw [heq], hlabelEq ▸ hlabel, hboundEq ▸ hc⟩
    · rintro ⟨e, he, rfl, hlabel, hc⟩
      obtain ⟨hlabelEq, hboundEq⟩ := hview e
      exact ⟨(e.view forward).2, mem_transitionsAt.2 ⟨e, he, rfl⟩, hlabelEq.trans hlabel, by
        rw [hboundEq]
        exact hc⟩
  obtain ⟨value, hvalue, haccepts, hcolors⟩ := moveColors_spec hin name facet
  cases value with
  | none =>
    refine ⟨none, by simp [rowEntry, hvalue, pure, Except.pure], .of_value R.accepts_none ?_⟩
    intro c
    rw [hcolors, hmoves]
  | some a =>
    obtain ⟨found, hfound, hfinds⟩ := Finds.of_nonempty (haccepts a rfl) s
    refine ⟨_, ?_, hfinds.congr fun c => ?_⟩
    · simp only [rowEntry, hvalue, hfound, liftM_ok, ok_bind]
      cases found <;> rfl
    · rw [← R.colorsOf_some, hcolors, hmoves]

/-- The states with a move along a dimension, with the colors for which there is one. -/
theorem Proper.evalTransition_spec {M : ExplicitModel C} (hM : M.Proper)
    (hbounds : ∀ e ∈ M.edges, R.InDomain e.bound) (forward : Bool) {name : String} (facet : Facet)
    (hname : Builder.checkName M.dimensions name = .ok ()) :
    ∃ m, M.evalTransition A (M.rows forward) name facet = .ok m ∧
      m.Shows R M.stateCount (· < M.stateCount) fun s c => ∃ e ∈ M.edges,
        (e.view forward).1 = s ∧ e.label = .move name facet ∧ c ∈ R.colors e.bound := by
  obtain ⟨entries, hentries, hlisted⟩ := select_spec (R := R) (k := Prod.snd)
    (Ψ := fun row c => ∃ e ∈ M.edges, (e.view forward).1 = row.2 ∧ e.label = .move name facet ∧
      c ∈ R.colors e.bound)
    (f := rowEntry A name facet) (l := (M.rows forward).toList.zipIdx)
    (by rw [zipIdx_rows, List.pairwise_map]; exact List.pairwise_lt_range)
    (by
      intro row hrow
      rw [zipIdx_rows] at hrow
      obtain ⟨s, _, rfl⟩ := List.mem_map.1 hrow
      exact rowEntry_spec hbounds forward name facet s)
  refine ⟨.ofEntries entries M.stateCount, ?_,
    (hlisted.toGathered.congr ?_ ?_).ofEntries hlisted.nodup fun s hs => hs⟩
  · rw [evalTransition_eq, hname, lift_ok, ok_bind, hentries]
    rfl
  · simp [zipIdx_rows]
  · intro s c
    simp only [zipIdx_rows, List.mem_map, List.mem_range]
    constructor
    · rintro ⟨_, ⟨s, _, rfl⟩, rfl, hmove⟩
      exact hmove
    · rintro ⟨e, he, rfl, hmove⟩
      exact ⟨_, ⟨_, (hM.view_lt he forward).1, rfl⟩, rfl, e, he, rfl, hmove⟩

theorem mem_holding (values : List Binary64) (comparison : Comparison) (threshold : Binary64) (s : Nat) :
    s ∈ (values.zipIdx.filter fun (x, _) => comparison.holds x threshold).map (·.2) ↔
      ∃ x, values[s]? = some x ∧ comparison.holds x threshold = true := by
  simp only [List.mem_map, List.mem_filter, Prod.exists, List.mem_zipIdx_iff_getElem?]
  simp

theorem Proper.holding_lt {M : ExplicitModel C} (hM : M.Proper) {name : String}
    {values : List Binary64} (hname : M.definitions.lookup name = some values)
    (comparison : Comparison) (threshold : Binary64) :
    ∀ s ∈ (values.zipIdx.filter fun (x, _) => comparison.holds x threshold).map (·.2),
      s < M.stateCount := by
  intro s hs
  obtain ⟨x, hx, _⟩ := (mem_holding values comparison threshold s).1 hs
  rw [← hM.length_eq name values hname]
  exact (List.getElem?_eq_some_iff.1 hx).1

/-- The states where a variable compares to a threshold, with all colors. -/
theorem Proper.evalFloat_spec {M : ExplicitModel C} (hM : M.Proper) {name : String}
    {values : List Binary64} (hname : M.definitions.lookup name = some values)
    (comparison : Comparison) (threshold : Binary64) :
    ∃ m, M.evalFloat A name comparison threshold = .ok m ∧
      m.Shows R M.stateCount (· < M.stateCount) fun s c => c ∈ R.palette ∧
        ∃ x, values[s]? = some x ∧ comparison.holds x threshold = true := by
  have hlt := hM.holding_lt hname comparison threshold
  obtain ⟨d, hd, hcount, hcontains⟩ := StateSet.ofList_spec hlt
  refine ⟨.constant d A.full.get, ?_, ⟨⟨hcount, R.inDomain_full⟩, ?_, ?_⟩⟩
  · rw [evalFloat, hname]
    exact bind_eq_ok_iff.2 ⟨d, by rw [hd]; rfl, rfl⟩
  · intro s hs
    exact hlt s ((hcontains s).1 hs)
  · intro s c
    rw [StateMap.colorsAt_constant, ← mem_holding values comparison threshold, ← hcontains]
    by_cases hs : d.contains s = true <;> simp [hs, R.colors_full]

end Atoms

theorem checkAtom_float {M : ExplicitModel C} {name : String} {comparison : Comparison}
    {threshold : Binary64} (h : (M.toModel A).checkAtom (.float name comparison threshold) = .ok ()) :
    ∃ values, M.definitions.lookup name = some values := by
  by_contra hnone
  have hlookup : (M.definitions.lookup name).isSome = false := by
    rw [← Bool.not_eq_true, Option.isSome_iff_exists]
    exact hnone
  simp [toModel, hlookup] at h

/-- A model that was built from its edges serves the structures with, for each color, the edges whose
bound has the color. -/
theorem Proper.serves {M : ExplicitModel C} (hM : M.Proper) {R : Reading A}
    (hbounds : ∀ e ∈ M.edges, R.InDomain e.bound) :
    (M.toModel A).Serves R fun c => M.system fun bound => c ∈ R.colors bound where
  stateCount_le := hM.stateCount_le
  stateCount_eq _ := rfl
  target_lt ht := hM.target_lt_of_mem_successors ht
  inDomain {s forward t} ht := by
    obtain ⟨e, he, heq⟩ := hM.mem_successors.1 ht
    cases forward <;> cases heq <;> exact hbounds e he
  step_iff {c label s t} forward := by
    simp only [hM.mem_successors]
    cases forward with
    | false =>
      constructor
      · rintro ⟨e, he, rfl, rfl, rfl, hc⟩
        exact ⟨_, ⟨e, he, rfl⟩, rfl, rfl, hc⟩
      · rintro ⟨_, ⟨e, he, heq⟩, rfl, rfl, hc⟩
        cases heq
        exact ⟨e, he, rfl, rfl, rfl, hc⟩
    | true =>
      constructor
      · rintro ⟨e, he, rfl, rfl, rfl, hc⟩
        exact ⟨_, ⟨e, he, rfl⟩, rfl, rfl, hc⟩
      · rintro ⟨_, ⟨e, he, heq⟩, rfl, rfl, hc⟩
        cases heq
        exact ⟨e, he, rfl, rfl, rfl, hc⟩
  atom_spec {a} ha := by
    cases a with
    | float name comparison threshold =>
      obtain ⟨values, hvalues⟩ := checkAtom_float ha
      obtain ⟨m, hm, hshows⟩ := hM.evalFloat_spec (R := R) hvalues comparison threshold
      refine ⟨m, hm, hshows.congr (fun s hs => hs) ?_⟩
      intro s c
      constructor
      · intro hc
        obtain ⟨hs, _, hcolor⟩ := hshows.within_of_mem hc
        obtain ⟨_, x, hx, hholds⟩ := hc
        exact ⟨hs, hcolor, values, x, hvalues, hx, hholds⟩
      · rintro ⟨_, hcolor, found, x, hfound, hx, hholds⟩
        rw [hvalues] at hfound
        cases hfound
        exact ⟨hcolor, x, hx, hholds⟩
    | transition name flow facet =>
      have hat : ∀ forward, (∀ e : Edge C, (e.view forward).1 = e.endpoint flow) →
          ∃ m, M.evalTransition A (M.rows forward) name facet = .ok m ∧
            m.Shows R M.stateCount (· < M.stateCount) fun s c => s < M.stateCount ∧ c ∈ R.palette ∧
              (M.system fun bound => c ∈ R.colors bound).Atom (.transition name flow facet) s := by
        intro forward hview
        obtain ⟨m, hm, hshows⟩ := hM.evalTransition_spec hbounds forward facet ha
        refine ⟨m, hm, hshows.congr (fun s hs => hs) ?_⟩
        intro s c
        constructor
        · intro hc
          obtain ⟨hs, _, hcolor⟩ := hshows.within_of_mem hc
          obtain ⟨e, he, hs', hlabel, hc⟩ := hc
          exact ⟨hs, hcolor, e, he, hlabel, (hview e).symm.trans hs', hc⟩
        · rintro ⟨_, _, e, he, hlabel, hs, hc⟩
          exact ⟨e, he, (hview e).trans hs, hlabel, hc⟩
      cases flow with
      | into => exact hat false fun e => rfl
      | out => exact hat true fun e => rfl

end ExplicitModel

end ColoredCtl

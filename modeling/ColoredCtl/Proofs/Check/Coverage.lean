import ColoredCtl.Proofs.Check.SomePath
import ColoredCtl.Proofs.State.Histories

/-!
The coverage of the states of a path.

Each transition out of a state keeps the colors of its bound that its target has not been told to hold for
(`Tracks`). These only become fewer, and only by colors for which the target holds; so a state holds for
the colors that are left at none of its transitions (`Covers`).
-/

namespace ColoredCtl

open Color

variable {C : Type} {ctx : Context C} {R : Reading ctx.algebra} {S : Nat → Kripke}
  {P H : Nat → Set Nat} {course : Course} {path : StateMap C}

/-- The coverage of a state after it has been told some values of others: its transitions in their order,
each with the colors of its bound that no value told for its target has. -/
structure Until.Coverage.Tracks (ctx : Context C) {A : Algebra C} (R : Reading A) (course : Course)
    (path : StateMap C) (told : Packet C) (p : Nat) (cov : Until.Coverage C) : Prop where
  owns : ctx.Owns p
  base_in : R.InDomain cov.base
  base_iff : ∀ {c}, c ∈ R.colors cov.base ↔
    c ∈ path.colorsAt R p ∧ ∃ e ∈ course.successors ctx.model p, c ∈ R.colors e.bound
  edges : ∃ left : Transition C → C,
    cov.edges = (course.successors ctx.model p).map (fun e => (e.target, left e)) ∧
      ∀ e ∈ course.successors ctx.model p, R.InDomain (left e) ∧
        R.colors (left e) = R.colors e.bound \ Accumulator.unionAt R told e.target

/-- The coverage of a state is about its transitions: a color that is missing at one of them is a color
for which its target holds. -/
structure Until.Coverage.Covers (ctx : Context C) (R : Reading ctx.algebra) (S : Nat → Kripke)
    (course : Course) (P H : Nat → Set Nat) (p : Nat) (cov : Until.Coverage C) : Prop where
  owns : ctx.Owns p
  base_in : R.InDomain cov.base
  base_iff : ∀ {c}, c ∈ R.colors cov.base ↔
    (c ∈ R.palette ∧ p ∈ P c) ∧ ∃ t, (S c).Leads course p t
  edge_in : ∀ {edge}, edge ∈ cov.edges → R.InDomain edge.2
  edge_of : ∀ {edge}, edge ∈ cov.edges → ∃ e ∈ course.successors ctx.model p,
    edge.1 = e.target ∧ R.colors edge.2 ⊆ R.colors e.bound
  edge_for : ∀ {e}, e ∈ course.successors ctx.model p → ∃ edge ∈ cov.edges, edge.1 = e.target ∧
    ∀ c ∈ R.colors e.bound, c ∉ R.colors edge.2 → e.target ∈ H c

/-- The state of the coverage can hold by its transitions for the color, and none of them keeps it. -/
def Until.Coverage.Confirms {A : Algebra C} (R : Reading A) (cov : Until.Coverage C) (c : Nat) : Prop :=
  c ∈ R.colors cov.base ∧ ∀ edge ∈ cov.edges, c ∉ R.colors edge.2

/-- A color that is left at no transition of a state is one for which all steps lead to states that
hold. -/
theorem Until.Coverage.Covers.next {p : Nat} {cov : Until.Coverage C}
    (h : cov.Covers ctx R S course P H p) (hready : ctx.Ready R S) {c : Nat} (hc : cov.Confirms R c) :
    p ∈ P c ∧ (S c).Next .all course (H c) p := by
  obtain ⟨⟨_, hP⟩, hstep⟩ := h.base_iff.1 hc.1
  refine ⟨hP, hstep, ?_⟩
  intro t hleads
  obtain ⟨e, he, rfl, hbound⟩ := hready.serves.leads_iff_successors.1 hleads
  obtain ⟨edge, hedge, _, hheld⟩ := h.edge_for he
  exact hheld c hbound (hc.2 edge hedge)

namespace Until.Coverage.Tracks

variable {told : Packet C} {p : Nat} {cov : Coverage C}

theorem edge_in (h : cov.Tracks ctx R course path told p) {edge : Nat × C} (hedge : edge ∈ cov.edges) :
    R.InDomain edge.2 := by
  obtain ⟨left, hedges, hleft⟩ := h.edges
  rw [hedges] at hedge
  obtain ⟨e, he, rfl⟩ := List.mem_map.1 hedge
  exact (hleft e he).1

/-- At the start a color for which the state can hold is kept by a transition. -/
theorem not_confirms (h : cov.Tracks ctx R course path [] p) (c : Nat) : ¬cov.Confirms R c := by
  rintro ⟨hbase, hlost⟩
  obtain ⟨left, hedges, hleft⟩ := h.edges
  obtain ⟨_, e, he, hbound⟩ := h.base_iff.1 hbase
  refine hlost (e.target, left e) (hedges ▸ List.mem_map.2 ⟨e, he, rfl⟩) ?_
  rw [(hleft e he).2]
  simpa [Accumulator.unionAt] using hbound

/-- When all that was told is so, the coverage is about the steps of the state. -/
theorem covers (h : cov.Tracks ctx R course path told p) (hready : ctx.Ready R S)
    (hpath : ctx.Shows R P path) (htold : ∀ {t a}, (t, a) ∈ told → ∀ c ∈ R.colors a, t ∈ H c) :
    cov.Covers ctx R S course P H p := by
  obtain ⟨left, hedges, hleft⟩ := h.edges
  refine ⟨h.owns, h.base_in, ?_, h.edge_in, ?_, ?_⟩
  · intro c
    rw [h.base_iff, hpath.mem_iff]
    simp [h.owns, hready.serves.leads_iff_successors]
  · intro edge hedge
    rw [hedges] at hedge
    obtain ⟨e, he, rfl⟩ := List.mem_map.1 hedge
    refine ⟨e, he, rfl, ?_⟩
    rw [(hleft e he).2]
    exact Finset.sdiff_subset
  · intro e he
    refine ⟨(e.target, left e), hedges ▸ List.mem_map.2 ⟨e, he, rfl⟩, rfl, ?_⟩
    intro c hc hnot
    rw [(hleft e he).2, Finset.mem_sdiff, not_and, not_not] at hnot
    obtain ⟨a, hmem, hca⟩ := Accumulator.mem_unionAt.1 (hnot hc)
    exact htold hmem c hca

/-- A value of a state that no transition leads to makes no difference. -/
theorem tell (h : cov.Tracks ctx R course path told p) {u : Nat} (hu : ∀ edge ∈ cov.edges, edge.1 ≠ u)
    (value : C) : cov.Tracks ctx R course path ((u, value) :: told) p := by
  obtain ⟨left, hedges, hleft⟩ := h.edges
  refine ⟨h.owns, h.base_in, h.base_iff, left, hedges, ?_⟩
  intro e he
  have hne : u ≠ e.target := (hu _ (hedges ▸ List.mem_map.2 ⟨e, he, rfl⟩)).symm
  rw [Accumulator.unionAt_cons, if_neg hne]
  exact hleft e he

end Until.Coverage.Tracks

namespace Until.Cover

/-- A cover whose states have been told some values: all states that can hold by their transitions have a
coverage, and each is noted once for each target of its transitions. -/
structure Tracks (ctx : Context C) {A : Algebra C} (R : Reading A) (course : Course) (path : StateMap C)
    (told : Nat → Packet C) (cover : Cover C) : Prop where
  tracks : ∀ {p : Nat} {cov : Coverage C}, cover.coverage[p]? = some cov →
    cov.Tracks ctx R course path (told p) p
  exists_iff : ∀ {p : Nat}, (∃ cov, cover.coverage[p]? = some cov) ↔
    ∃ c ∈ path.colorsAt R p, ∃ e ∈ course.successors ctx.model p, c ∈ R.colors e.bound
  nodup : ∀ u : Nat, (cover.dependents[u]?.getD []).Nodup
  mem_iff : ∀ {p u : Nat}, p ∈ cover.dependents[u]?.getD [] ↔
    ∃ cov, cover.coverage[p]? = some cov ∧ ∃ edge ∈ cov.edges, edge.1 = u

/-- What a cover keeps about the states of a worker. -/
structure Keeps (ctx : Context C) (R : Reading ctx.algebra) (S : Nat → Kripke) (course : Course)
    (P H : Nat → Set Nat) (cover : Cover C) : Prop where
  covers : ∀ {p : Nat} {cov : Coverage C}, cover.coverage[p]? = some cov → cov.Covers ctx R S course P H p
  exists_of : ∀ {p c t : Nat}, ctx.Owns p → c ∈ R.palette → p ∈ P c → (S c).Leads course p t →
    ∃ cov, cover.coverage[p]? = some cov
  dependents : ∀ {p : Nat} {cov : Coverage C}, cover.coverage[p]? = some cov → ∀ edge ∈ cov.edges,
    p ∈ cover.dependents[edge.1]?.getD []

theorem Tracks.keeps {told : Nat → Packet C} {cover : Cover C} (h : cover.Tracks ctx R course path told)
    (hready : ctx.Ready R S) (hpath : ctx.Shows R P path)
    (htold : ∀ {p t a}, (t, a) ∈ told p → ∀ c ∈ R.colors a, t ∈ H c) :
    cover.Keeps ctx R S course P H where
  covers hcov := (h.tracks hcov).covers hready hpath htold
  exists_of howns hc hP hleads := by
    obtain ⟨e, he, _, hbound⟩ := hready.serves.leads_iff_successors.1 hleads
    exact h.exists_iff.2 ⟨_, hpath.mem_iff.2 ⟨howns, hc, hP⟩, e, he, hbound⟩
  dependents hcov edge hedge := h.mem_iff.2 ⟨_, hcov, edge, hedge, rfl⟩

/-- The result has, at each state with a coverage, the colors that are left at none of its transitions. -/
def Raises {A : Algebra C} (R : Reading A) (cover : Cover C) (result : Accumulator C) : Prop :=
  ∀ (p : Nat) (cov : Coverage C), cover.coverage[p]? = some cov → ∀ c, cov.Confirms R c →
    c ∈ result.colorsAt R p

/-- No transition of a state to the target keeps the color. -/
def HeardAt {A : Algebra C} (R : Reading A) (cover : Cover C) (p u c : Nat) : Prop :=
  ∀ cov : Coverage C, cover.coverage[p]? = some cov → ∀ edge ∈ cov.edges, edge.1 = u → c ∉ R.colors edge.2

section Start

/-- The coverage of a state at the start keeps all colors of its transitions. -/
theorem initial?_spec (course : Course) (h : ctx.Ready R S) (s : Nat) {value : C}
    (hvalue : R.InDomain value) :
    ∃ found, initial? ctx course s value = .ok found ∧
      (∀ cov, found = some cov → R.InDomain cov.base ∧
        cov.edges = (course.successors ctx.model s).map (fun e => (e.target, e.bound)) ∧
        ∀ {c}, c ∈ R.colors cov.base ↔
          c ∈ R.colors value ∧ ∃ e ∈ course.successors ctx.model s, c ∈ R.colors e.bound) ∧
      (found.isSome = true ↔
        ∃ c ∈ R.colors value, ∃ e ∈ course.successors ctx.model s, c ∈ R.colors e.bound) := by
  obtain ⟨out, hout, houtIn, houtColors⟩ := outgoing_spec h course s
  obtain ⟨base, hbase, hbaseIn, hbaseColors⟩ := R.inter_spec hvalue houtIn
  obtain ⟨found, hfound, hiff⟩ := R.nonempty_spec hbaseIn
  have hbaseIff {c : Nat} : c ∈ R.colors base ↔
      c ∈ R.colors value ∧ ∃ e ∈ course.successors ctx.model s, c ∈ R.colors e.bound := by
    rw [hbaseColors, Finset.mem_inter, houtColors]
    simp [h.serves.leads_iff_successors]
  have hunfold : initial? ctx course s value = .ok (if found then
      some ⟨base, (course.successors ctx.model s).map fun e => (e.target, e.bound)⟩ else none) := by
    have hbounds : ((course.successors ctx.model s).map fun e => (e.target, e.bound)).map (·.2) =
        (course.successors ctx.model s).map (·.bound) := by
      simp
    simp only [initial?, Operations.maybeNonempty]
    rw [hbounds, hout, ok_bind, hbase, ok_bind, hfound, ok_bind]
    cases found <;> rfl
  refine ⟨_, hunfold, ?_, ?_⟩
  · intro cov hcov
    cases found with
    | false => cases hcov
    | true =>
      cases hcov
      exact ⟨hbaseIn, rfl, hbaseIff⟩
  · have hsome : (if found then some (⟨base, (course.successors ctx.model s).map
        fun e => (e.target, e.bound)⟩ : Coverage C) else none).isSome = found := by
      cases found <;> rfl
    rw [hsome, hiff]
    simp only [Finset.Nonempty, hbaseIff]

theorem mem_consOnce {s t : Nat} {states : List Nat} :
    t ∈ consOnce s states ↔ t = s ∨ t ∈ states := by
  unfold consOnce
  split
  · next hhead =>
    have hmem : s ∈ states := List.mem_of_mem_head? hhead
    constructor
    · exact .inr
    · rintro (rfl | ht)
      · exact hmem
      · exact ht
  · exact List.mem_cons

/-- Noting a coverage makes the state a dependent of the targets of its transitions. -/
theorem dependents_insert (cover : Cover C) (s : Nat) (cov : Coverage C) (u t : Nat) :
    t ∈ ((cover.insert s cov).dependents[u]?.getD []) ↔
      (t = s ∧ ∃ edge ∈ cov.edges, edge.1 = u) ∨ t ∈ cover.dependents[u]?.getD [] := by
  simp only [insert]
  generalize cover.dependents = deps
  induction cov.edges generalizing deps with
  | nil => simp
  | cons edge rest ih =>
    rw [List.foldl_cons, ih, Std.TreeMap.getElem?_insert]
    by_cases heq : edge.1 = u
    · subst heq
      simp [mem_consOnce]
      tauto
    · simp [heq]

/-- A state that is not there, or stands in front, is put in front once. -/
theorem nodup_consOnce {s : Nat} {states : List Nat} (hnodup : states.Nodup)
    (hfront : s ∈ states → states.head? = some s) :
    (consOnce s states).Nodup ∧ (consOnce s states).head? = some s := by
  unfold consOnce
  split
  · next hhead => exact ⟨hnodup, hhead⟩
  · next hhead => exact ⟨List.nodup_cons.2 ⟨fun hmem => hhead (hfront hmem), hnodup⟩, rfl⟩

/-- A new state becomes a dependent of each target once, though several transitions may lead to it. -/
theorem nodup_dependents_insert {cover : Cover C} {s : Nat} (cov : Coverage C)
    (hnodup : ∀ u : Nat, (cover.dependents[u]?.getD []).Nodup)
    (hnew : ∀ u : Nat, s ∉ cover.dependents[u]?.getD []) (u : Nat) :
    ((cover.insert s cov).dependents[u]?.getD []).Nodup := by
  have hfront (v : Nat) (hmem : s ∈ cover.dependents[v]?.getD []) :
      (cover.dependents[v]?.getD []).head? = some s := absurd hmem (hnew v)
  simp only [insert]
  -- While its transitions are noted, the state stands in front wherever it is noted.
  generalize cover.dependents = deps at hnodup hfront
  clear hnew
  induction cov.edges generalizing deps with
  | nil => exact hnodup u
  | cons edge rest ih =>
    rw [List.foldl_cons]
    obtain ⟨hnext, hhead⟩ := nodup_consOnce (hnodup edge.1) (hfront edge.1)
    apply ih
    · intro v
      rw [Std.TreeMap.getElem?_insert]
      split
      · exact hnext
      · exact hnodup v
    · intro v hv
      rw [Std.TreeMap.getElem?_insert] at hv ⊢
      split
      · exact hhead
      · next hne =>
        rw [if_neg hne] at hv
        exact hfront v hv

/-- Noting the coverages of different states one after the other. -/
theorem foldl_insert_spec {built : List (Nat × Coverage C)} (hbuilt : (built.map (·.1)).Nodup) :
    let cover := built.foldl (fun cover (s, cov) => cover.insert s cov) ({} : Cover C)
    (∀ {p : Nat} {cov : Coverage C}, cover.coverage[p]? = some cov ↔ (p, cov) ∈ built) ∧
      (∀ u : Nat, (cover.dependents[u]?.getD []).Nodup) ∧
      ∀ {p u : Nat}, p ∈ cover.dependents[u]?.getD [] ↔
        ∃ cov, (p, cov) ∈ built ∧ ∃ edge ∈ cov.edges, edge.1 = u := by
  -- The items noted so far grow at the end, so the induction is on the list from its end.
  induction built using List.reverseRecOn with
  | nil => simp
  | append_singleton built item ih =>
    obtain ⟨s, cov⟩ := item
    rw [List.map_append, List.nodup_append] at hbuilt
    obtain ⟨hbuilt, _, hdisjoint⟩ := hbuilt
    have hnew (cov' : Coverage C) : (s, cov') ∉ built := fun hmem =>
      hdisjoint s (List.mem_map_of_mem hmem) s (by simp) rfl
    simp only [List.foldl_append, List.foldl_cons, List.foldl_nil] at ih ⊢
    obtain ⟨hcoverage, hnodup, hdependents⟩ := ih hbuilt
    refine ⟨?_, ?_, ?_⟩
    · intro p cov'
      rw [insert, Std.TreeMap.getElem?_insert, List.mem_append, List.mem_singleton, Prod.mk.injEq]
      split
      · next heq =>
        obtain rfl : s = p := by simpa using heq
        simp [hnew, eq_comm]
      · next hne =>
        have hne : p ≠ s := fun heq => hne (by simp [heq])
        simpa [hne] using hcoverage
    · refine nodup_dependents_insert cov hnodup fun u hmem => ?_
      obtain ⟨cov', hin, _⟩ := hdependents.1 hmem
      exact hnew cov' hin
    · intro p u
      rw [dependents_insert, hdependents]
      simp only [List.mem_append, List.mem_singleton, Prod.mk.injEq]
      grind

/-- What a cover has for one state of the path. -/
theorem ofState_spec (course : Course) (h : ctx.Ready R S) (hpath : ctx.Shows R P path) {s : Nat}
    (howns : ctx.Owns s) :
    ∃ found, (do
        match ← path.get? ctx.algebra s with
        | none => return none
        | some value => return (← initial? ctx course s value).map (s, ·) :
          Except Misuse (Option (Nat × Coverage C))) = .ok found ∧
      (∀ item, found = some item → item.1 = s ∧ item.2.Tracks ctx R course path [] s) ∧
      (found.isSome = true ↔
        ∃ c ∈ path.colorsAt R s, ∃ e ∈ course.successors ctx.model s, c ∈ R.colors e.bound) := by
  obtain ⟨value, hvalue, haccepts, _⟩ := hpath.get?_spec s
  rw [StateMap.colorsAt_eq hvalue]
  cases value with
  | none => exact ⟨none, by rw [hvalue]; rfl, by simp, by simp⟩
  | some a =>
    obtain ⟨found, hfound, hcov, hsome⟩ := initial?_spec course h s (haccepts a rfl)
    refine ⟨found.map (s, ·), ?_, ?_, ?_⟩
    · simp only [hvalue, hfound, ok_bind]
      rfl
    · intro item hitem
      obtain ⟨cov, hcovEq, rfl⟩ := Option.map_eq_some_iff.1 hitem
      obtain ⟨hbaseIn, hedges, hbaseIff⟩ := hcov cov hcovEq
      refine ⟨rfl, howns, hbaseIn, ?_, fun e => e.bound, hedges, ?_⟩
      · intro c
        rw [hbaseIff, StateMap.colorsAt_eq hvalue, R.colorsOf_some]
      · intro e he
        exact ⟨(h.serves.inDomain_successors he).2, by simp [Accumulator.unionAt]⟩
    · rw [Option.isSome_map, hsome, R.colorsOf_some]

/-- The cover of a path at the start: nothing has been told yet, whatever the order of the states. -/
theorem ofStates_spec (course : Course) (h : ctx.Ready R S) (hpath : ctx.Shows R P path) {states : List Nat}
    (hstates : Shuffles path.states states) :
    ∃ cover, ofStates ctx course path states = .ok cover ∧
      cover.Tracks ctx R course path fun _ => [] := by
  obtain ⟨listed, hlisted, hperm⟩ := hstates
  obtain ⟨states', hstates', horder, hwithin, hmem⟩ := hpath.states_spec h.stateCount_le
  cases hlisted.symm.trans hstates'
  simp only [← hperm.mem_iff] at hwithin hmem
  choose! found hfound htracks hsome using fun s (hs : s ∈ states) =>
    ofState_spec course h hpath (hwithin s hs).1
  have hkept (s : Nat) (hs : s ∈ states) := congrArg kept? (hfound s hs)
  have hbuilt := filterMapM_eq_ok fun s hs => ⟨found s, hfound s hs⟩
  rw [List.filterMap_congr hkept] at hbuilt
  have hkeys : ((states.filterMap found).map (·.1)).Nodup := by
    have hlistedKeys : ((listed.filterMap found).map (·.1)).Nodup :=
      (InOrder.filterMap horder fun s hs item hitem =>
        (htracks s (hperm.mem_iff.2 hs) item hitem).1).imp Nat.ne_of_lt
    exact ((hperm.filterMap found).map _).nodup_iff.2 hlistedKeys
  have hitem {p : Nat} {cov : Coverage C} :
      (p, cov) ∈ states.filterMap found ↔ p ∈ states ∧ found p = some (p, cov) := by
    rw [List.mem_filterMap]
    constructor
    · rintro ⟨s, hs, hfoundEq⟩
      obtain ⟨rfl, _⟩ := htracks s hs _ hfoundEq
      exact ⟨hs, hfoundEq⟩
    · exact fun hp => ⟨p, hp⟩
  obtain ⟨hcoverage, hnodup, hdependents⟩ := foldl_insert_spec hkeys
  refine ⟨_, ?_, ?_, ?_, hnodup, ?_⟩
  · exact bind_eq_ok_iff.2 ⟨_, hbuilt, rfl⟩
  · intro p cov hcov
    obtain ⟨hp, hfoundEq⟩ := hitem.1 (hcoverage.1 hcov)
    exact (htracks p hp _ hfoundEq).2
  · intro p
    simp only [hcoverage, hitem]
    constructor
    · rintro ⟨cov, hp, hfoundEq⟩
      exact (hsome p hp).1 (by rw [hfoundEq]; rfl)
    · rintro ⟨c, hc, hstep⟩
      have hp : p ∈ states := hmem (hpath.mem_iff.1 hc)
      obtain ⟨⟨s, cov⟩, hfoundEq⟩ := Option.isSome_iff_exists.1 ((hsome p hp).2 ⟨c, hc, hstep⟩)
      obtain rfl : s = p := (htracks p hp _ hfoundEq).1
      exact ⟨cov, hp, hfoundEq⟩
  · intro p u
    simp only [hdependents, hcoverage]

theorem ofPath_eq {states : List Nat} {cover : Cover C} {course : Course} (hstates : path.states = .ok states)
    (hcover : ofStates ctx course path states = .ok cover) : ofPath ctx course path = .ok cover := by
  rw [ofPath, hstates, ok_bind, hcover]

theorem ofPath_spec (course : Course) (h : ctx.Ready R S) (hpath : ctx.Shows R P path) :
    ∃ cover, ofPath ctx course path = .ok cover ∧ cover.Tracks ctx R course path fun _ => [] := by
  obtain ⟨states, hstates, _⟩ := hpath.states_spec h.stateCount_le
  obtain ⟨cover, hcover, htracks⟩ := ofStates_spec course h hpath (.of_ok hstates)
  exact ⟨cover, ofPath_eq hstates hcover, htracks⟩

end Start

section Shrink

/-- A transition after a value of a target was taken into account: if it leads to the target, it has
lost the colors of the value. -/
structure Shrunk {A : Algebra C} (R : Reading A) (u : Nat) (value : C) (edge next : Nat × C) : Prop where
  target_eq : next.1 = edge.1
  inDomain : R.InDomain next.2
  mem_iff : ∀ {c}, c ∈ R.colors next.2 ↔ c ∈ R.colors edge.2 ∧ ¬(edge.1 = u ∧ c ∈ R.colors value)

theorem shrinkEdge_spec {A : Algebra C} {R : Reading A} {edge : Nat × C} (hedge : R.InDomain edge.2)
    {value : C} (hvalue : R.InDomain value) (u : Nat) :
    ∃ shrank next, shrinkEdge A u value edge = .ok (shrank, next) ∧ Shrunk R u value edge next ∧
      (shrank = false → next = edge) := by
  by_cases heq : edge.1 = u
  · obtain ⟨both, hboth, hbothIn, hbothColors⟩ := R.inter_spec hedge hvalue
    obtain ⟨found, hfound, hiff⟩ := R.nonempty_spec hbothIn
    have hunfold : shrinkEdge A u value edge =
        if found then (A.diff edge.2 value).map fun rest => (true, (edge.1, rest))
        else .ok (false, edge) := by
      simp only [shrinkEdge, if_pos heq, hboth, Operations.maybeNonempty, hfound, ok_bind]
      cases found with
      | false => rfl
      | true => cases A.diff edge.2 value <;> rfl
    rw [hunfold]
    cases found with
    | false =>
      have hdisjoint : ∀ c ∈ R.colors value, c ∉ R.colors edge.2 := by
        intro c hcv hc
        have hin : c ∈ R.colors both := hbothColors ▸ Finset.mem_inter.2 ⟨hc, hcv⟩
        exact absurd (hiff.2 ⟨c, hin⟩) (by simp)
      refine ⟨false, edge, rfl, ⟨rfl, hedge, ?_⟩, fun _ => rfl⟩
      intro c
      constructor
      · exact fun hc => ⟨hc, fun hand => hdisjoint c hand.2 hc⟩
      · exact fun hc => hc.1
    | true =>
      obtain ⟨rest, hrest, hrestIn, hrestColors⟩ := R.diff_spec hedge hvalue
      refine ⟨true, (edge.1, rest), by rw [if_pos rfl, hrest]; rfl, ⟨rfl, hrestIn, ?_⟩, by simp⟩
      intro c
      rw [hrestColors, Finset.mem_sdiff]
      simp [heq]
  · refine ⟨false, edge, by rw [shrinkEdge, if_neg heq]; rfl, ⟨rfl, hedge, ?_⟩, fun _ => rfl⟩
    intro c
    simp [heq]

end Shrink

end Until.Cover

namespace Until.Coverage

/-- A coverage after a value of a target was taken into account at all its transitions. -/
structure Shrinks {A : Algebra C} (R : Reading A) (u : Nat) (value : C) (cov next : Coverage C) : Prop where
  base_eq : next.base = cov.base
  edges : ∃ f, next.edges = cov.edges.map f ∧ ∀ edge ∈ cov.edges, Cover.Shrunk R u value edge (f edge)

variable {p u : Nat} {cov next : Coverage C} {value : C}

namespace Shrinks

variable {A : Algebra C} {R : Reading A}

theorem exists_before (h : cov.Shrinks R u value next) {edge' : Nat × C} (hedge' : edge' ∈ next.edges) :
    ∃ edge ∈ cov.edges, Cover.Shrunk R u value edge edge' := by
  obtain ⟨f, hedges, hf⟩ := h.edges
  rw [hedges] at hedge'
  obtain ⟨edge, hedge, rfl⟩ := List.mem_map.1 hedge'
  exact ⟨edge, hedge, hf edge hedge⟩

theorem exists_after (h : cov.Shrinks R u value next) {edge : Nat × C} (hedge : edge ∈ cov.edges) :
    ∃ edge' ∈ next.edges, Cover.Shrunk R u value edge edge' := by
  obtain ⟨f, hedges, hf⟩ := h.edges
  exact ⟨f edge, hedges ▸ List.mem_map_of_mem hedge, hf edge hedge⟩

/-- Taking a value into account at all transitions. None of them has changed if none became less. -/
theorem shrinkEdges_spec (hedges : ∀ edge ∈ cov.edges, R.InDomain edge.2) (hvalue : R.InDomain value)
    (u : Nat) :
    ∃ shrunk, cov.edges.mapM (Cover.shrinkEdge A u value) = .ok shrunk ∧
      cov.Shrinks R u value { cov with edges := shrunk.map (·.2) } ∧
      (shrunk.any (·.1) = false → shrunk.map (·.2) = cov.edges) := by
  have hnonempty : Nonempty (Nat × C) := ⟨(u, value)⟩
  choose! shrank f hshrink hshrunk hsame using fun edge (hedge : edge ∈ cov.edges) =>
    Cover.shrinkEdge_spec (hedges edge hedge) hvalue u
  have hmap : (cov.edges.map fun edge => (shrank edge, f edge)).map (·.2) = cov.edges.map f := by
    simp
  refine ⟨_, mapM_eq_ok hshrink, ⟨rfl, f, hmap, hshrunk⟩, ?_⟩
  intro hany
  rw [hmap]
  rw [List.any_map, List.any_eq_false] at hany
  refine (List.map_congr_left fun edge hedge => ?_).trans (List.map_id cov.edges)
  exact hsame edge hedge (by simpa using hany edge hedge)

end Shrinks

/-- The coverage is still about the steps of the state if the target holds for the colors of the value. -/
theorem Covers.shrink (h : cov.Covers ctx R S course P H p) (hholds : ∀ c ∈ R.colors value, u ∈ H c)
    (hnext : cov.Shrinks R u value next) : next.Covers ctx R S course P H p where
  owns := h.owns
  base_in := hnext.base_eq ▸ h.base_in
  base_iff := hnext.base_eq ▸ h.base_iff
  edge_in hedge' := by
    obtain ⟨_, _, hshrunk⟩ := hnext.exists_before hedge'
    exact hshrunk.inDomain
  edge_of hedge' := by
    obtain ⟨edge, hedge, hshrunk⟩ := hnext.exists_before hedge'
    obtain ⟨e, he, htarget, hsub⟩ := h.edge_of hedge
    exact ⟨e, he, hshrunk.target_eq.trans htarget, fun c hc => hsub (hshrunk.mem_iff.1 hc).1⟩
  edge_for he := by
    obtain ⟨edge, hedge, htarget, hheld⟩ := h.edge_for he
    obtain ⟨edge', hedge', hshrunk⟩ := hnext.exists_after hedge
    refine ⟨edge', hedge', hshrunk.target_eq.trans htarget, ?_⟩
    intro c hc hlost
    by_cases hbefore : c ∈ R.colors edge.2
    · rw [hshrunk.mem_iff, not_and, not_not] at hlost
      obtain ⟨hu, hcvalue⟩ := hlost hbefore
      rw [← htarget, hu]
      exact hholds c hcvalue
    · exact hheld c hc hbefore

/-- The value counts among those that the state has been told. -/
theorem Tracks.shrink {told : Packet C} (h : cov.Tracks ctx R course path told p)
    (hnext : cov.Shrinks R u value next) : next.Tracks ctx R course path ((u, value) :: told) p := by
  obtain ⟨left, hedges, hleft⟩ := h.edges
  obtain ⟨f, hnextEdges, hf⟩ := hnext.edges
  rw [hedges] at hnextEdges hf
  have hshrunk (e : Transition C) (he : e ∈ course.successors ctx.model p) :=
    hf _ (List.mem_map_of_mem he)
  refine ⟨h.owns, hnext.base_eq ▸ h.base_in, hnext.base_eq ▸ h.base_iff,
    fun e => (f (e.target, left e)).2, ?_, ?_⟩
  · rw [hnextEdges, List.map_map]
    refine List.map_congr_left fun e he => ?_
    exact Prod.ext (hshrunk e he).target_eq rfl
  · intro e he
    refine ⟨(hshrunk e he).inDomain, ?_⟩
    ext c
    rw [(hshrunk e he).mem_iff, (hleft e he).2, Accumulator.unionAt_cons]
    by_cases heq : u = e.target
    · simp only [heq, true_and, if_true, Finset.mem_sdiff, Finset.mem_union]
      tauto
    · simp [heq, Ne.symm heq]

end Until.Coverage

namespace Until.Cover

section Renew

/-- A cover with a new coverage for a state that it has one for. -/
structure Renewed (p : Nat) (next : Coverage C) (cover after : Cover C) : Prop where
  coverage_eq : ∀ q : Nat, after.coverage[q]? = if p = q then some next else cover.coverage[q]?
  dependents_eq : after.dependents = cover.dependents

variable {cover after : Cover C} {p u : Nat} {cov next : Coverage C} {value : C}

theorem Renewed.exists_iff (h : Renewed p next cover after) (hcov : cover.coverage[p]? = some cov) {q : Nat} :
    (∃ cov', after.coverage[q]? = some cov') ↔ ∃ cov', cover.coverage[q]? = some cov' := by
  rw [h.coverage_eq]
  split
  · next heq => simp [← heq, hcov]
  · rfl

/-- A cover is kept when the transitions of one of its states have lost the colors of a value for which
their target holds. -/
theorem Keeps.shrink (h : cover.Keeps ctx R S course P H) (hcov : cover.coverage[p]? = some cov)
    (hholds : ∀ c ∈ R.colors value, u ∈ H c) (hnext : cov.Shrinks R u value next)
    (hafter : Renewed p next cover after) : after.Keeps ctx R S course P H where
  covers {q cov'} hcov' := by
    rw [hafter.coverage_eq] at hcov'
    split at hcov'
    · next heq =>
      cases heq
      cases hcov'
      exact (h.covers hcov).shrink hholds hnext
    · exact h.covers hcov'
  exists_of howns hc hP hleads := (hafter.exists_iff hcov).2 (h.exists_of howns hc hP hleads)
  dependents {q cov'} hcov' edge' hedge' := by
    rw [hafter.dependents_eq]
    rw [hafter.coverage_eq] at hcov'
    split at hcov'
    · next heq =>
      cases heq
      cases hcov'
      obtain ⟨edge, hedge, hshrunk⟩ := hnext.exists_before hedge'
      rw [hshrunk.target_eq]
      exact h.dependents hcov edge hedge
    · exact h.dependents hcov' edge' hedge'

/-- One of the states has been told one more value. -/
theorem Tracks.shrink {told : Nat → Packet C} (h : cover.Tracks ctx R course path told)
    (hcov : cover.coverage[p]? = some cov) (hnext : cov.Shrinks R u value next)
    (hafter : Renewed p next cover after) :
    after.Tracks ctx R course path (Function.update told p ((u, value) :: told p)) where
  tracks {q cov'} hcov' := by
    rw [hafter.coverage_eq] at hcov'
    split at hcov'
    · next heq =>
      cases heq
      cases hcov'
      rw [Function.update_self]
      exact (h.tracks hcov).shrink hnext
    · next hne =>
      rw [Function.update_of_ne (Ne.symm hne)]
      exact h.tracks hcov'
  exists_iff := (hafter.exists_iff hcov).trans h.exists_iff
  nodup v := hafter.dependents_eq ▸ h.nodup v
  mem_iff {q v} := by
    have htargets : (∃ edge ∈ next.edges, edge.1 = v) ↔ ∃ edge ∈ cov.edges, edge.1 = v := by
      constructor
      · rintro ⟨edge', hedge', rfl⟩
        obtain ⟨edge, hedge, hshrunk⟩ := hnext.exists_before hedge'
        exact ⟨edge, hedge, hshrunk.target_eq.symm⟩
      · rintro ⟨edge, hedge, rfl⟩
        obtain ⟨edge', hedge', hshrunk⟩ := hnext.exists_after hedge
        exact ⟨edge', hedge', hshrunk.target_eq⟩
    rw [hafter.dependents_eq, h.mem_iff, hafter.coverage_eq]
    split
    · next heq =>
      cases heq
      simp only [hcov, Option.some.injEq, exists_eq_left', htargets]
    · rfl

/-- The state has heard of the value, and nothing heard before is forgotten. -/
theorem heardAt_shrink {A : Algebra C} {R : Reading A} (hcov : cover.coverage[p]? = some cov)
    (hnext : cov.Shrinks R u value next) (hafter : Renewed p next cover after) :
    (∀ c ∈ R.colors value, after.HeardAt R p u c) ∧
      ∀ {q v c}, cover.HeardAt R q v c → after.HeardAt R q v c := by
  refine ⟨?_, ?_⟩
  · intro c hc cov' hcov' edge' hedge' htarget hmem
    rw [hafter.coverage_eq, if_pos rfl] at hcov'
    cases hcov'
    obtain ⟨edge, _, hshrunk⟩ := hnext.exists_before hedge'
    exact (hshrunk.mem_iff.1 hmem).2 ⟨hshrunk.target_eq.symm.trans htarget, hc⟩
  · intro q v c hheard cov' hcov' edge' hedge' htarget hmem
    rw [hafter.coverage_eq] at hcov'
    split at hcov'
    · next heq =>
      cases heq
      cases hcov'
      obtain ⟨edge, hedge, hshrunk⟩ := hnext.exists_before hedge'
      exact hheard cov hcov edge hedge (hshrunk.target_eq.symm.trans htarget)
        (hshrunk.mem_iff.1 hmem).1
    · exact hheard cov' hcov' edge' hedge' htarget hmem

end Renew

end Until.Cover

end ColoredCtl

import ColoredCtl.Check.Until
import ColoredCtl.Proofs.Check.Team
import Mathlib.Algebra.BigOperators.Group.Finset.Basic
import Mathlib.Algebra.Order.BigOperators.Group.Finset

/-!
One search: its steps, and why they come to an end.

The values of a search only grow, and a state whose value has grown waits to be handled. Each growth
uses up one of the colors that are still missing somewhere, so the missing colors and the waiting
states together become fewer whenever a state is handled.
-/

namespace ColoredCtl.Search

open Color

variable {C σ : Type} {ctx : Context C} {R : Reading ctx.algebra} {S : Nat → Kripke}

/-- The parts of a search fit each other and the worker. -/
structure Fits (ctx : Context C) {A : Algebra C} (R : Reading A) (s : Search C σ) : Prop where
  result_fits : s.result.Fits R ctx.stateCount
  range : ∀ {t}, ctx.Owns t → s.result.range.contains t = true
  within : ∀ {t c}, c ∈ s.result.colorsAt R t → ctx.Owns t
  queued_count : s.work.queued.stateCount = ctx.stateCount
  queued_iff : ∀ {t}, s.work.queued.contains t = true ↔ t ∈ s.work.stack
  nodup : s.work.stack.Nodup
  pending : ∀ {t}, t ∈ s.work.stack → (s.result.colorsAt R t).Nonempty
  staging_fits : s.staging.Fits R ctx.stateCount ctx.partition.count ctx.id

/-- The states of a worker. -/
def owned (ctx : Context C) : Finset Nat :=
  (Finset.range ctx.stateCount).filter fun t => ctx.partition.owner t = ctx.id

theorem mem_owned {t : Nat} : t ∈ owned ctx ↔ ctx.Owns t := by
  simp [owned, Context.Owns]

/-- The number of colors that the result could still gain. -/
def missing (ctx : Context C) (R : Reading ctx.algebra) (s : Search C σ) : Nat :=
  ∑ t ∈ owned ctx, (R.palette.card - (s.result.colorsAt R t).card)

/-- How much is left to do. -/
def potential (ctx : Context C) (R : Reading ctx.algebra) (s : Search C σ) : Nat :=
  missing ctx R s + s.work.stack.length

/-- A search has gone on: its result has grown, at states that now wait to be handled. -/
structure Extends (ctx : Context C) (R : Reading ctx.algebra) (s s' : Search C σ) : Prop where
  grows : ∀ t, s.result.colorsAt R t ⊆ s'.result.colorsAt R t
  queued : ∀ {t}, t ∈ s.work.stack → t ∈ s'.work.stack
  unchanged : ∀ {t}, t ∉ s'.work.stack → s'.result.colorsAt R t = s.result.colorsAt R t
  staged : ∀ j u, s.staging.colorsFor R j u ⊆ s'.staging.colorsFor R j u
  potential_le : potential ctx R s' ≤ potential ctx R s

theorem Extends.refl (s : Search C σ) : Extends ctx R s s :=
  ⟨fun _ => Finset.Subset.refl _, id, fun _ => rfl, fun _ _ => Finset.Subset.refl _, Nat.le_refl _⟩

theorem Extends.trans {s s' s'' : Search C σ} (h : Extends ctx R s s') (h' : Extends ctx R s' s'') :
    Extends ctx R s s'' where
  grows t := (h.grows t).trans (h'.grows t)
  queued ht := h'.queued (h.queued ht)
  unchanged ht := (h'.unchanged ht).trans (h.unchanged fun hmem => ht (h'.queued hmem))
  staged j u := (h.staged j u).trans (h'.staged j u)
  potential_le := Nat.le_trans h'.potential_le h.potential_le

theorem missing_anti {s s' : Search C σ} (h : ∀ t, s.result.colorsAt R t ⊆ s'.result.colorsAt R t) :
    missing ctx R s' ≤ missing ctx R s :=
  Finset.sum_le_sum fun t _ => Nat.sub_le_sub_left (Finset.card_le_card (h t)) _

/-- If states wait where none did, the result has a color more somewhere. -/
theorem Extends.exists_ssubset {s s' : Search C σ} (h : Extends ctx R s s') (hs : s.work.stack = [])
    (hs' : s'.work.stack ≠ []) : ∃ t, s.result.colorsAt R t ⊂ s'.result.colorsAt R t := by
  by_contra hnone
  have hsame : ∀ t, s.result.colorsAt R t = s'.result.colorsAt R t := by
    intro t
    by_contra hne
    exact hnone ⟨t, Finset.ssubset_iff_subset_ne.2 ⟨h.grows t, hne⟩⟩
  have hpotential := h.potential_le
  have hpos : 0 < s'.work.stack.length := List.length_pos_of_ne_nil hs'
  simp only [potential, missing, hsame, hs, List.length_nil] at hpotential
  omega

theorem missing_le (s : Search C σ) : missing ctx R s ≤ (owned ctx).card * R.palette.card := by
  calc missing ctx R s
    _ ≤ ∑ _t ∈ owned ctx, R.palette.card := Finset.sum_le_sum fun t _ => Nat.sub_le _ _
    _ = (owned ctx).card * R.palette.card := Finset.sum_const_nat fun _ _ => rfl

/-- What is left to do is less than what one call of `drain` has fuel for. -/
theorem Fits.potential_le {s : Search C σ} (h : s.Fits ctx R) :
    potential ctx R s ≤ drainFuel ctx := by
  have hstack : s.work.stack.length ≤ (owned ctx).card := by
    rw [← List.toFinset_card_of_nodup h.nodup]
    refine Finset.card_le_card fun t ht => mem_owned.2 ?_
    obtain ⟨c, hc⟩ := h.pending (List.mem_toFinset.1 ht)
    exact h.within hc
  have howned : (owned ctx).card ≤ ctx.stateCount := by
    have hle := Finset.card_filter_le (Finset.range ctx.stateCount)
      fun t => ctx.partition.owner t = ctx.id
    rwa [Finset.card_range] at hle
  calc potential ctx R s
    _ ≤ (owned ctx).card * R.palette.card + (owned ctx).card := Nat.add_le_add (missing_le s) hstack
    _ = (owned ctx).card * (R.palette.card + 1) := by rw [Nat.mul_add_one]
    _ ≤ ctx.stateCount * (ctx.algebra.height + 1) :=
      Nat.mul_le_mul howned (Nat.add_le_add_right R.card_palette_le 1)

/-- A value that grows at one state, by at least one color, uses up a missing color. -/
theorem missing_lt {s s' : Search C σ} {t : Nat} (ht : ctx.Owns t)
    (hle : ∀ u, s.result.colorsAt R u ⊆ s'.result.colorsAt R u)
    (hsub : s'.result.colorsAt R t ⊆ R.palette)
    (hlt : ¬s'.result.colorsAt R t ⊆ s.result.colorsAt R t) :
    missing ctx R s' < missing ctx R s := by
  refine Finset.sum_lt_sum (fun u _ => Nat.sub_le_sub_left (Finset.card_le_card (hle u)) _)
    ⟨t, mem_owned.2 ht, ?_⟩
  have hcard : (s.result.colorsAt R t).card < (s'.result.colorsAt R t).card :=
    Finset.card_lt_card ⟨hle t, hlt⟩
  have hpalette : (s'.result.colorsAt R t).card ≤ R.palette.card := Finset.card_le_card hsub
  omega

/-- The memory of a rule is of no account to the search. -/
theorem Fits.remember {s : Search C σ} (h : s.Fits ctx R) (memory : σ) :
    ({ s with memory } : Search C σ).Fits ctx R ∧ Extends ctx R s { s with memory } :=
  ⟨⟨h.result_fits, h.range, h.within, h.queued_count, h.queued_iff, h.nodup, h.pending, h.staging_fits⟩,
    fun _ => Finset.Subset.refl _, id, fun _ => rfl, fun _ _ => Finset.Subset.refl _, Nat.le_refl _⟩

/-- Taking the last state from the work-set. -/
theorem Fits.pop {s : Search C σ} (h : s.Fits ctx R) {t : Nat} {rest : List Nat}
    (hstack : s.work.stack = t :: rest) :
    ({ s with work := ⟨rest, s.work.queued.without t⟩ } : Search C σ).Fits ctx R := by
  have hnodup := h.nodup
  rw [hstack, List.nodup_cons] at hnodup
  refine ⟨h.result_fits, h.range, h.within, h.queued_count, ?_, hnodup.2, ?_, h.staging_fits⟩
  · intro u
    rw [StateSet.contains_without, Bool.and_eq_true, h.queued_iff, hstack, List.mem_cons]
    constructor
    · rintro ⟨rfl | hu, hne⟩
      · simp at hne
      · exact hu
    · intro hu
      refine ⟨.inr hu, ?_⟩
      have hne : t ≠ u := fun heq => hnodup.1 (heq ▸ hu)
      simp [hne]
  · intro u hu
    exact h.pending (by rw [hstack]; exact List.mem_cons_of_mem _ hu)

/-- Sending what was staged. -/
theorem Fits.clear {s : Search C σ} (h : s.Fits ctx R) :
    ({ s with staging := s.staging.clear } : Search C σ).Fits ctx R ∧
      ∀ j u, s.staging.clear.colorsFor R j u = ∅ := by
  obtain ⟨hfits, hempty⟩ := h.staging_fits.clear_spec
  exact ⟨⟨h.result_fits, h.range, h.within, h.queued_count, h.queued_iff, h.nodup, h.pending, hfits⟩,
    hempty⟩

section Push

theorem push_spec {w : WorkSet} {n t : Nat} (hcount : w.queued.stateCount = n)
    (hiff : ∀ {u}, w.queued.contains u = true ↔ u ∈ w.stack) (hnodup : w.stack.Nodup) (ht : t < n) :
    ∃ next, w.push t = .ok next ∧ next.queued.stateCount = n ∧
      (∀ {u}, next.queued.contains u = true ↔ u ∈ next.stack) ∧ next.stack.Nodup ∧
      (∀ u, u ∈ next.stack ↔ u = t ∨ u ∈ w.stack) ∧ next.stack.length ≤ w.stack.length + 1 := by
  have hlt : t < w.queued.stateCount := hcount ▸ ht
  by_cases hmem : t ∈ w.stack
  · refine ⟨⟨w.stack, w.queued.add t hlt⟩, ?_, hcount, ?_, hnodup, ?_, Nat.le_succ _⟩
    · rw [WorkSet.push, StateSet.insert_eq _ hlt, hiff.2 hmem]
      rfl
    · intro u
      rw [StateSet.contains_add, Bool.or_eq_true, hiff, decide_eq_true_iff]
      constructor
      · rintro (hu | rfl)
        · exact hu
        · exact hmem
      · exact .inl
    · intro u
      constructor
      · exact .inr
      · rintro (rfl | hu)
        · exact hmem
        · exact hu
  · have hfalse : w.queued.contains t = false := by
      rw [← Bool.not_eq_true, hiff]
      exact hmem
    refine ⟨⟨t :: w.stack, w.queued.add t hlt⟩, ?_, hcount, ?_, List.nodup_cons.2 ⟨hmem, hnodup⟩,
      fun u => List.mem_cons, Nat.le_refl _⟩
    · rw [WorkSet.push, StateSet.insert_eq _ hlt, hfalse]
      rfl
    · intro u
      rw [StateSet.contains_add, Bool.or_eq_true, hiff, decide_eq_true_iff, List.mem_cons, or_comm,
        eq_comm]

end Push

/-- Adding a value to the result: the state waits if it has grown. -/
theorem Fits.raise_spec {s : Search C σ} (h : s.Fits ctx R) {t : Nat} (ht : ctx.Owns t) {value : C}
    (hvalue : R.InDomain value) :
    ∃ s', s.raise ctx t value = .ok s' ∧ s'.Fits ctx R ∧ s'.staging = s.staging ∧
      s'.memory = s.memory ∧ Extends ctx R s s' ∧
      ∀ u, s'.result.colorsAt R u =
        if u = t then s.result.colorsAt R u ∪ R.colors value else s.result.colorsAt R u := by
  obtain ⟨grew, result, hadd, hfits, hrange, hcolors, hgrew⟩ :=
    h.result_fits.add_spec (h.range ht) hvalue
  have hgrows : ∀ u, s.result.colorsAt R u ⊆ result.colorsAt R u := by
    intro u
    rw [hcolors]
    split
    · exact Finset.subset_union_left
    · exact Finset.Subset.refl _
  have hwithin : ∀ {u c}, c ∈ result.colorsAt R u → ctx.Owns u := by
    intro u c hc
    rw [hcolors] at hc
    split at hc
    · next heq => exact heq ▸ ht
    · exact h.within hc
  cases grew with
  | false =>
    have hsub : R.colors value ⊆ s.result.colorsAt R t := by
      by_contra hnot
      exact absurd (hgrew.2 hnot) (by simp)
    have hsame : ∀ u, result.colorsAt R u = s.result.colorsAt R u := by
      intro u
      rw [hcolors]
      split
      · next heq => rw [heq, Finset.union_eq_left.2 hsub]
      · rfl
    refine ⟨⟨result, s.work, s.staging, s.memory⟩, ?_, ?_, rfl, rfl, ?_, hcolors⟩
    · simp only [raise, hadd, ofMap_ok, ok_bind]
      rfl
    · refine ⟨hfits, ?_, hwithin, h.queued_count, h.queued_iff, h.nodup, ?_, h.staging_fits⟩
      · intro u hu
        rw [hrange]
        exact h.range hu
      · intro u hu
        rw [hsame]
        exact h.pending hu
    · refine ⟨hgrows, id, fun _ => hsame _, fun _ _ => Finset.Subset.refl _, ?_⟩
      simp only [potential, missing, hsame, Nat.le_refl]
  | true =>
    have hnot : ¬R.colors value ⊆ s.result.colorsAt R t := hgrew.1 rfl
    obtain ⟨work, hwork, hcount, hiff, hnodup, hmem, hlength⟩ :=
      push_spec h.queued_count h.queued_iff h.nodup ht.1
    have hlt : missing ctx R ⟨result, work, s.staging, s.memory⟩ < missing ctx R s := by
      refine missing_lt ht hgrows ?_ ?_
      · have hsub := hfits.freeze_fits.colorsAt_subset t
        rwa [Accumulator.colorsAt_freeze] at hsub
      · rw [hcolors, if_pos rfl]
        exact fun hsub => hnot (Finset.subset_union_right.trans hsub)
    refine ⟨⟨result, work, s.staging, s.memory⟩, ?_, ?_, rfl, rfl, ?_, hcolors⟩
    · simp only [raise, hadd, ofMap_ok, ok_bind, if_true, hwork]
      rfl
    · refine ⟨hfits, ?_, hwithin, hcount, hiff, hnodup, ?_, h.staging_fits⟩
      · intro u hu
        rw [hrange]
        exact h.range hu
      · intro u hu
        rcases (hmem u).1 hu with rfl | hu
        · rw [hcolors, if_pos rfl]
          obtain ⟨c, hc, _⟩ := Finset.not_subset.1 hnot
          exact ⟨c, Finset.mem_union_right _ hc⟩
        · exact (h.pending hu).mono (hgrows u)
    · refine ⟨hgrows, fun hu => (hmem _).2 (.inr hu), ?_, fun _ _ => Finset.Subset.refl _, ?_⟩
      · intro u hu
        rw [hcolors, if_neg]
        rintro rfl
        exact hu ((hmem u).2 (.inl rfl))
      · simp only [potential]
        omega

/-- Staging a value for another worker leaves the rest as it is. -/
theorem Fits.stage_spec {s : Search C σ} (h : s.Fits ctx R) {j t : Nat} {value : C}
    (hj : j < ctx.partition.count) (hne : j ≠ ctx.id) (ht : t < ctx.stateCount)
    (hvalue : R.InDomain value) :
    ∃ staging, s.stage ctx j t value = .ok { s with staging } ∧
      ({ s with staging } : Search C σ).Fits ctx R ∧ Extends ctx R s { s with staging } ∧
      ∀ k u, staging.colorsFor R k u = if k = j ∧ u = t then s.staging.colorsFor R k u ∪ R.colors value
        else s.staging.colorsFor R k u := by
  obtain ⟨staging, hpush, hfits, hcolors⟩ := h.staging_fits.push_spec hj hne ht hvalue
  refine ⟨staging, ?_, ?_, ?_, hcolors⟩
  · simp only [stage, hpush, ofMap_ok, ok_bind]
    rfl
  · exact ⟨h.result_fits, h.range, h.within, h.queued_count, h.queued_iff, h.nodup, h.pending, hfits⟩
  · refine ⟨fun _ => Finset.Subset.refl _, id, fun _ => rfl, ?_, Nat.le_refl _⟩
    intro k u
    rw [hcolors]
    split
    · exact Finset.subset_union_left
    · exact Finset.Subset.refl _

/-- A new search has no values, and no states wait. -/
theorem new_spec (h : ctx.Ready R S) (memory : σ) :
    ∃ start, Search.new ctx memory = .ok start ∧ start.Fits ctx R ∧ start.memory = memory ∧
      start.work.stack = [] ∧ (∀ j u, start.staging.colorsFor R j u = ∅) ∧
      ∀ t, start.result.colorsAt R t = ∅ := by
  obtain ⟨acc, hacc, haccFits, hrange, hempty⟩ := h.newResult_spec
  obtain ⟨hstaging, hnone⟩ := Staging.new_spec ctx h
  refine ⟨⟨acc, .empty ctx.stateCount, .new ctx, memory⟩, ?_, ?_, rfl, rfl, hnone, hempty⟩
  · rw [Search.new, hacc]
    rfl
  · refine ⟨haccFits, fun ht => hrange _ ht, ?_, rfl, ?_, List.nodup_nil, ?_, hstaging⟩
    · intro t c hc
      rw [hempty] at hc
      cases hc
    · intro t
      simp [WorkSet.empty]
    · intro t ht
      cases ht

/-- A new search with some seeds: all states that have a value wait. -/
theorem seeds_spec (h : ctx.Ready R S) (memory : σ) {seeds : Packet C} {Φ : Nat → Nat → Prop}
    (hseeds : Gathered R ctx.Owns Φ seeds) :
    ∃ start s, Search.new ctx memory = .ok start ∧ start.feed (raise ctx) seeds = .ok s ∧
      s.Fits ctx R ∧ s.memory = memory ∧ (∀ j u, s.staging.colorsFor R j u = ∅) ∧
      (∀ {t}, t ∉ s.work.stack → s.result.colorsAt R t = ∅) ∧
      ∀ t c, c ∈ s.result.colorsAt R t ↔ Φ t c := by
  obtain ⟨start, hnew, hstart, hmemory, _, hnone, hempty⟩ := new_spec h memory
  have hrun : ∃ s, start.feed (raise ctx) seeds = .ok s ∧ s.Fits ctx R ∧
      s.staging = start.staging ∧ s.memory = memory ∧ Extends ctx R start s ∧
      ∀ t c, c ∈ s.result.colorsAt R t ↔ ∃ a, (t, a) ∈ seeds ∧ c ∈ R.colors a := by
    refine foldlM_run (fun done (s : Search C σ) => s.Fits ctx R ∧ s.staging = start.staging ∧
      s.memory = memory ∧ Extends ctx R start s ∧
      ∀ t c, c ∈ s.result.colorsAt R t ↔ ∃ a, (t, a) ∈ done ∧ c ∈ R.colors a)
      ⟨hstart, rfl, hmemory, .refl start, by simp [hempty]⟩ ?_
    rintro done ⟨t, a⟩ rest s hsplit ⟨hfits, hstagingEq, hmemory, hext, hcolors⟩
    have hmem : (t, a) ∈ seeds := by simp [hsplit]
    obtain ⟨next, hnext, hnextFits, hnextStaging, hnextMemory, hnextExt, hnextColors⟩ :=
      hfits.raise_spec (hseeds.within hmem) (hseeds.inDomain hmem)
    refine ⟨next, hnext, hnextFits, hnextStaging.trans hstagingEq, hnextMemory.trans hmemory,
      hext.trans hnextExt, ?_⟩
    intro u c
    rw [hnextColors]
    by_cases heq : u = t
    · subst heq
      simp [hcolors, or_and_right, exists_or]
    · simp [hcolors, heq]
  obtain ⟨s, hs, hfits, hstagingEq, hmemory, hext, hcolors⟩ := hrun
  refine ⟨start, s, hnew, hs, hfits, hmemory, ?_, ?_, ?_⟩
  · intro j u
    rw [hstagingEq]
    exact hnone j u
  · intro t ht
    rw [hext.unchanged ht]
    exact hempty t
  · intro t c
    rw [hcolors, hseeds.mem_iff]

/-- A search that has taken its seeds. -/
def Begins (ctx : Context C) (memory : σ) (seeds : Packet C) (s : Search C σ) : Prop :=
  ∃ start, Search.new ctx memory = .ok start ∧ start.feed (raise ctx) seeds = .ok s

/-- A fixed point is what the search comes to after it has taken its seeds. -/
theorem Begins.fixedPoint_eq {memory : σ} {seeds : Packet C} {s : Search C σ}
    (h : Begins ctx memory seeds s) (rule : Rule C σ) :
    fixedPoint ctx rule memory seeds = saturate ctx rule (roundFuel ctx) s := by
  obtain ⟨start, hstart, hfeed⟩ := h
  rw [fixedPoint, hstart]
  change (liftM (start.feed (raise ctx) seeds) : Worker C (Search C σ)) >>= _ = _
  rw [hfeed]
  rfl

section Drain

/-- Handles the last state of the work-set, if there is one. -/
def turn (rule : Rule C σ) (s : Search C σ) : Option (Attempt (Search C σ)) :=
  match s.work.stack with
  | [] => none
  | t :: rest =>
    let s := { s with work := ⟨rest, s.work.queued.without t⟩ }
    match s.result.get? t with
    | none => some (.ok s)
    | some value => some (rule.propagate s t value)

/-- The work-set is empty after a number of states were handled, one after the other. -/
inductive Drains (rule : Rule C σ) : (turns : Nat) → Search C σ → Search C σ → Prop
  | done {s : Search C σ} (h : turn rule s = none) : Drains rule 0 s s
  | step {turns : Nat} {s s' d : Search C σ} (h : turn rule s = some (.ok s'))
      (hrest : Drains rule turns s' d) : Drains rule (turns + 1) s d

theorem turn_of_nil (rule : Rule C σ) {s : Search C σ} (h : s.work.stack = []) : turn rule s = none := by
  rw [turn, h]

theorem turn_of_cons (rule : Rule C σ) {s : Search C σ} {t : Nat} {rest : List Nat} {value : C}
    (h : s.work.stack = t :: rest) (hvalue : s.result.get? t = some value) :
    turn rule s = some (rule.propagate { s with work := ⟨rest, s.work.queued.without t⟩ } t value) := by
  simp only [turn, h, hvalue]

theorem pop_eq_some_iff {w next : WorkSet} {t : Nat} :
    w.pop = (some t, next) ↔ ∃ rest, w.stack = t :: rest ∧ next = ⟨rest, w.queued.without t⟩ := by
  obtain ⟨stack, queued⟩ := w
  cases stack with
  | nil => simp [WorkSet.pop]
  | cons u rest =>
    simp only [WorkSet.pop, Prod.mk.injEq, Option.some.injEq, List.cons.injEq]
    constructor
    · rintro ⟨rfl, rfl⟩
      exact ⟨rest, ⟨rfl, rfl⟩, rfl⟩
    · rintro ⟨_, ⟨rfl, rfl⟩, rfl⟩
      exact ⟨rfl, rfl⟩

/-- What a turn can do. -/
theorem turn_cases {rule : Rule C σ} {s s' : Search C σ} (h : turn rule s = some (.ok s')) :
    ∃ t work, s.work.pop = (some t, work) ∧
      (s.result.get? t = none ∧ s' = { s with work } ∨
        ∃ value, s.result.get? t = some value ∧ rule.propagate { s with work } t value = .ok s') := by
  cases hstack : s.work.stack with
  | nil =>
    rw [turn_of_nil rule hstack] at h
    cases h
  | cons t rest =>
    refine ⟨t, _, pop_eq_some_iff.2 ⟨rest, hstack, rfl⟩, ?_⟩
    cases hget : s.result.get? t with
    | none =>
      simp only [turn, hstack, hget, Option.some.injEq, Except.ok.injEq] at h
      exact .inl ⟨rfl, h.symm⟩
    | some value =>
      rw [turn_of_cons rule hstack hget, Option.some.injEq] at h
      exact .inr ⟨value, rfl, h⟩

/-- Draining is taking turns, as many as there is fuel for. -/
theorem drain_eq_turn (rule : Rule C σ) (fuel : Nat) (s : Search C σ) :
    drain rule fuel s =
      match turn rule s, fuel with
      | none, _ => .ok s
      | some _, 0 => .error (.error .unsettled)
      | some next, fuel + 1 => next >>= drain rule fuel := by
  obtain ⟨result, ⟨stack, queued⟩, staging, memory⟩ := s
  cases stack with
  | nil => cases fuel <;> rfl
  | cons t rest =>
    cases hget : result.get? t with
    | none =>
      have hturn : turn rule ⟨result, ⟨t :: rest, queued⟩, staging, memory⟩ =
          some (.ok ⟨result, ⟨rest, queued.without t⟩, staging, memory⟩) := by
        simp only [turn, hget]
      rw [hturn, drain]
      cases fuel <;> simp only [WorkSet.pop, hget, ok_bind]
    | some value =>
      rw [turn_of_cons rule rfl hget, drain]
      cases fuel <;> simp only [WorkSet.pop, hget]

/-- The fuel does not matter where the work-set becomes empty: it only limits the number of turns. -/
theorem drain_eq_ok_iff {rule : Rule C σ} {fuel : Nat} {s d : Search C σ} :
    drain rule fuel s = .ok d ↔ ∃ turns ≤ fuel, Drains rule turns s d := by
  constructor
  · intro h
    induction fuel generalizing s with
    | zero =>
      rw [drain_eq_turn] at h
      cases hturn : turn rule s with
      | none =>
        rw [hturn] at h
        cases h
        exact ⟨0, Nat.le_refl 0, .done hturn⟩
      | some next =>
        rw [hturn] at h
        cases h
    | succ fuel ih =>
      rw [drain_eq_turn] at h
      cases hturn : turn rule s with
      | none =>
        rw [hturn] at h
        cases h
        exact ⟨0, Nat.zero_le _, .done hturn⟩
      | some next =>
        rw [hturn] at h
        obtain ⟨s', rfl, hrest⟩ := bind_eq_ok_iff.1 h
        obtain ⟨turns, hle, hdrains⟩ := ih hrest
        exact ⟨turns + 1, Nat.succ_le_succ hle, .step hturn hdrains⟩
  · rintro ⟨turns, hle, hdrains⟩
    induction hdrains generalizing fuel with
    | done hturn => rw [drain_eq_turn, hturn]
    | step hturn _ ih =>
      cases fuel with
      | zero => exact absurd hle (Nat.not_succ_le_zero _)
      | succ fuel =>
        rw [drain_eq_turn, hturn]
        exact ih (Nat.le_of_succ_le_succ hle)

end Drain

end ColoredCtl.Search

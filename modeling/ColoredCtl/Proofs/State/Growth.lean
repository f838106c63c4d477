import ColoredCtl.Proofs.State.Views
import ColoredCtl.Check.Context

namespace ColoredCtl.Accumulator

open Color

variable {C : Type} {A : Algebra C}

/-- The colors that a growing map has at a state. -/
def colorsAt (R : Reading A) (acc : Accumulator C) (state : Nat) : Finset Nat :=
  R.colorsOf (acc.get? state)

theorem colorsAt_of_get? {R : Reading A} {acc : Accumulator C} {state : Nat} {a : C}
    (h : acc.get? state = some a) : acc.colorsAt R state = R.colors a := by
  rw [colorsAt, h, R.colorsOf_some]

theorem colorsAt_freeze (R : Reading A) (acc : Accumulator C) (state : Nat) :
    acc.freeze.colorsAt R state = acc.colorsAt R state :=
  StateMap.colorsAt_eq (get?_freeze A acc state)

/-- The growing maps over states below `n` with values of the domain that are not empty. -/
structure Fits (R : Reading A) (n : Nat) (acc : Accumulator C) : Prop where
  freeze_fits : acc.freeze.Fits R n
  range_lt : ∀ state, acc.range.contains state = true → state < n
  nonempty : ∀ {state a}, acc.get? state = some a → (R.colors a).Nonempty

section

variable {R : Reading A} {n : Nat}

theorem Fits.accepts {acc : Accumulator C} (h : acc.Fits R n) (state : Nat) :
    R.Accepts (acc.get? state) := by
  intro a ha
  exact h.freeze_fits.inDomain (by rw [get?_freeze, ha])

theorem Fits.contains_freeze {acc : Accumulator C} (h : acc.Fits R n) (state : Nat) :
    acc.freeze.contains state = true ↔ (acc.colorsAt R state).Nonempty := by
  rw [h.freeze_fits.contains_iff, get?_freeze, colorsAt]
  cases hget : acc.get? state with
  | none => simp
  | some a => simpa using h.nonempty hget

/-- What is frozen of a map with a new value fits when the value does. -/
theorem Fits.freeze_set {acc : Accumulator C} (h : acc.Fits R n) {state : Nat} {value : C}
    (hrange : acc.range.contains state = true) (hvalue : R.InDomain value) :
    (acc.set state value).freeze.Fits R n := by
  have hlt := h.range_lt state hrange
  have hold := h.freeze_fits
  have hget (other : Nat) (a : C) (ha : (acc.set state value).get? other = some a) :
      other < n ∧ R.InDomain a := by
    rw [get?_set acc value hrange] at ha
    by_cases heq : state = other
    · rw [if_pos heq] at ha
      cases ha
      exact heq ▸ ⟨hlt, hvalue⟩
    · rw [if_neg heq] at ha
      have hfound : acc.freeze.get? A other = .ok (some a) := by rw [get?_freeze, ha]
      exact ⟨hold.lt_of_contains (hold.contains_iff.2 ⟨a, hfound⟩), hold.inDomain hfound⟩
  cases acc with
  | dense start values filled count => exact ⟨hold.1, hget⟩
  | sparse values count => exact ⟨hold.1, hget⟩

/-- Adding a value unites it with the value at its state; the map reports growth exactly when a
color was new there. -/
theorem Fits.add_spec {acc : Accumulator C} (h : acc.Fits R n) {state : Nat} {value : C}
    (hrange : acc.range.contains state = true) (hvalue : R.InDomain value) :
    ∃ grew next, acc.add A state value = .ok (grew, next) ∧ next.Fits R n ∧
      next.range = acc.range ∧
      (∀ other, next.colorsAt R other =
        if other = state then acc.colorsAt R other ∪ R.colors value else acc.colorsAt R other) ∧
      (grew = true ↔ ¬R.colors value ⊆ acc.colorsAt R state) := by
  rcases R.grow?_spec (h.accepts state) hvalue with
    ⟨hgrow, hsubset⟩ | ⟨grown, hgrow, hgrownIn, hcolors, hnew⟩
  · refine ⟨false, acc, ?_, h, rfl, ?_, by simpa [colorsAt] using hsubset⟩
    · simp [add, hrange, hgrow, pure, Except.pure]
    · intro other
      by_cases heq : other = state
      · subst heq
        rw [if_pos rfl, colorsAt, Finset.union_eq_left.2 hsubset]
      · rw [if_neg heq]
  · have hget := get?_set acc grown hrange
    refine ⟨true, acc.set state grown, ?_, ⟨h.freeze_set hrange hgrownIn, ?_, ?_⟩,
      range_set acc state grown, ?_, by simpa [colorsAt] using hnew⟩
    · simp [add, hrange, hgrow, pure, Except.pure]
    · rw [range_set]
      exact h.range_lt
    · intro other a ha
      rw [hget] at ha
      by_cases heq : state = other
      · rw [if_pos heq] at ha
        cases ha
        rw [hcolors]
        obtain ⟨c, hc, _⟩ := Finset.not_subset.1 hnew
        exact ⟨c, Finset.mem_union_right _ hc⟩
      · rw [if_neg heq] at ha
        exact h.nonempty ha
    · intro other
      rw [colorsAt, hget]
      by_cases heq : other = state
      · subst heq
        simpa [colorsAt] using hcolors
      · rw [if_neg (Ne.symm heq), if_neg heq, colorsAt]

/-- Adding the values of a packet unites them all with what was there. -/
theorem Fits.addAll_spec {acc : Accumulator C} (h : acc.Fits R n) {packet : Packet C}
    (hpacket : ∀ state a, (state, a) ∈ packet → acc.range.contains state = true ∧ R.InDomain a) :
    ∃ next, acc.addAll A packet = .ok next ∧ next.Fits R n ∧ next.range = acc.range ∧
      ∀ state c, c ∈ next.colorsAt R state ↔
        c ∈ acc.colorsAt R state ∨ ∃ a, (state, a) ∈ packet ∧ c ∈ R.colors a := by
  refine foldlM_run (fun done (next : Accumulator C) => next.Fits R n ∧ next.range = acc.range ∧
    ∀ state c, c ∈ next.colorsAt R state ↔
      c ∈ acc.colorsAt R state ∨ ∃ a, (state, a) ∈ done ∧ c ∈ R.colors a)
    ⟨h, rfl, by simp⟩ ?_
  rintro done ⟨state, a⟩ rest acc' hpacketEq ⟨hfits, hrange, hcolors⟩
  obtain ⟨hin, ha⟩ := hpacket state a (by simp [hpacketEq])
  obtain ⟨grew, next, hadd, hnext, hnextRange, hnextColors, _⟩ :=
    hfits.add_spec (hrange ▸ hin) ha
  refine ⟨next, by simp [hadd, pure, Except.pure], hnext, hnextRange.trans hrange, ?_⟩
  intro other c
  rw [hnextColors]
  by_cases heq : other = state
  · subst heq
    simp only [if_true, Finset.mem_union, hcolors, List.mem_append, List.mem_singleton,
      Prod.mk.injEq, true_and, or_and_right, exists_or, exists_eq_left, or_assoc]
  · simp [heq, hcolors]

theorem newSparse_fits : (newSparse n : Accumulator C).Fits R n :=
  ⟨⟨rfl, by simp⟩, by simp [newSparse, range], by simp [newSparse, get?]⟩

@[simp] theorem colorsAt_newSparse (state : Nat) :
    (newSparse n : Accumulator C).colorsAt R state = ∅ := by
  simp [colorsAt, newSparse, get?]

/-- An empty dense map can be made over a range of states of the space. -/
theorem newDense_spec {range : Span} (hroom : Capacity.reserve A.domain.slotBytes range.length = .ok ())
    (hrange : range.start < range.stop → range.stop ≤ n) :
    ∃ acc, newDense A range n = .ok (acc : Accumulator C) ∧ acc.Fits R n ∧
      (∀ state, acc.range.contains state = range.contains state) ∧
      ∀ state, acc.colorsAt R state = ∅ := by
  have hslot (state : Nat) :
      StateMap.slot? range.start (Array.replicate range.length (none : Option C)) state = none := by
    rw [StateMap.slot?, Array.getElem?_replicate]
    split
    · split <;> rfl
    · rfl
  have hcontains (state : Nat) : (Accumulator.dense range.start
      (Array.replicate range.length (none : Option C)) 0 n).range.contains state =
        range.contains state := by
    rw [Bool.eq_iff_iff, Span.contains_iff, Span.contains_iff]
    simp only [Accumulator.range, Array.size_replicate, Span.length]
    omega
  refine ⟨.dense range.start (Array.replicate range.length none) 0 n,
    by simp only [newDense, hroom, ok_bind]; rfl, ⟨⟨rfl, ?_⟩, ?_, ?_⟩, hcontains, ?_⟩
  · intro state a ha
    rw [hslot] at ha
    cases ha
  · intro state hstate
    rw [hcontains, Span.contains_iff] at hstate
    have := hrange (by omega)
    omega
  · intro state a ha
    rw [get?, hslot] at ha
    cases ha
  · intro state
    rw [colorsAt, get?, hslot]
    rfl

theorem inOrder_entries (acc : Accumulator C) : InOrder acc.entries := by
  cases acc with
  | dense start values filled count =>
    have horder := StateMap.pairwise_slots values
    rw [InOrder, List.pairwise_map] at horder
    rw [entries, InOrder, List.map_map, List.pairwise_map]
    exact horder.imp fun hlt => Nat.add_lt_add_left hlt start
  | sparse values count =>
    rw [entries, InOrder, Std.TreeMap.map_fst_toList_eq_keys]
    exact values.ordered_keys.imp fun hlt => Nat.compare_eq_lt.1 hlt

theorem mem_entries {acc : Accumulator C} {state : Nat} {a : C} :
    (state, a) ∈ acc.entries ↔ acc.get? state = some a := by
  cases acc with
  | dense start values filled count =>
    rw [entries, get?, StateMap.slot?_eq_some_iff]
    simp only [List.mem_map, Prod.mk.injEq, Prod.exists]
    constructor
    · rintro ⟨i, b, hslot, hi, rfl⟩
      exact ⟨i, hslot, hi⟩
    · rintro ⟨i, hslot, hi⟩
      exact ⟨i, a, hslot, hi, rfl⟩
  | sparse values count => rw [entries, get?, Std.TreeMap.mem_toList_iff_getElem?_eq_some]

theorem isEmpty_iff {acc : Accumulator C} : acc.isEmpty = true ↔ ∀ state, acc.get? state = none := by
  rw [isEmpty, List.isEmpty_iff, List.eq_nil_iff_forall_not_mem]
  constructor
  · intro h state
    rw [Option.eq_none_iff_forall_not_mem]
    intro a ha
    exact h (state, a) (mem_entries.2 ha)
  · rintro h ⟨state, a⟩ hmem
    rw [mem_entries, h state] at hmem
    cases hmem

@[simp] theorem get?_clear (acc : Accumulator C) (state : Nat) : acc.clear.get? state = none := by
  cases acc with
  | dense start values filled count =>
    rw [clear, get?, StateMap.slot?, Array.getElem?_replicate]
    split
    · split <;> rfl
    · rfl
  | sparse values count => simp [clear, get?]

@[simp] theorem range_clear (acc : Accumulator C) : acc.clear.range = acc.range := by
  cases acc <;> simp [clear, range]

theorem Fits.clear {acc : Accumulator C} (h : acc.Fits R n) : acc.clear.Fits R n := by
  refine ⟨?_, ?_, by simp⟩
  · have hnone (state : Nat) (a : C) (ha : acc.clear.get? state = some a) :
        state < n ∧ R.InDomain a := by simp at ha
    cases acc with
    | dense start values filled count => exact ⟨h.freeze_fits.1, hnone⟩
    | sparse values count => exact ⟨h.freeze_fits.1, hnone⟩
  · rw [range_clear]
    exact h.range_lt

end

end ColoredCtl.Accumulator

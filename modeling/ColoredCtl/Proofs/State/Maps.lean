import ColoredCtl.Proofs.Color.Reading
import ColoredCtl.Proofs.State.Sets

/-!
What a state map stands for: a set of colors at each state.

`Valued` says of a map of any layout, views included, that it holds values of the domain only. Such a
map can be looked up without failing. `Fits` says moreover that the map is over a given state space: it
can be listed too, and views are the operations on sets, state by state, where a missing value is the
empty set.
-/

namespace ColoredCtl.StateMap

open Color

variable {C : Type} {A : Algebra C}

/-- The maps over the states below `n` with values of the domain. The set of states kept by a view is
that of its operands. -/
def Fits (R : Reading A) (n : Nat) : StateMap C → Prop
  | .dense start values count =>
    count = n ∧ ∀ state a, slot? start values state = some a → state < n ∧ R.InDomain a
  | .sparse values count =>
    count = n ∧ ∀ state a, values[state]? = some a → state < n ∧ R.InDomain a
  | .span range value count =>
    count = n ∧ (range.start < range.stop → range.stop ≤ n) ∧ R.InDomain value
  | .single state value count => count = n ∧ state < n ∧ R.InDomain value
  | .constant domain value => domain.stateCount = n ∧ R.InDomain value
  | .empty count => count = n
  | .interView left right domain =>
    left.Fits R n ∧ right.Fits R n ∧ domain.stateCount = n ∧
      ∀ state, domain.contains state = (left.contains state && right.contains state)
  | .unionView left right domain =>
    left.Fits R n ∧ right.Fits R n ∧ domain.stateCount = n ∧
      ∀ state, domain.contains state = (left.contains state || right.contains state)
  | .diffView whole part domain =>
    whole.Fits R n ∧ part.Fits R n ∧ domain.stateCount = n ∧
      ∀ state, domain.contains state = whole.contains state

/-- The maps with values of the domain, at any states. The set of states kept by a view is that of its
operands. -/
def Valued (R : Reading A) : StateMap C → Prop
  | .dense start values _ => ∀ state a, slot? start values state = some a → R.InDomain a
  | .sparse values _ => ∀ (state : Nat) a, values[state]? = some a → R.InDomain a
  | .span _ value _ | .single _ value _ | .constant _ value => R.InDomain value
  | .empty _ => True
  | .interView left right domain =>
    left.Valued R ∧ right.Valued R ∧
      ∀ state, domain.contains state = (left.contains state && right.contains state)
  | .unionView left right domain =>
    left.Valued R ∧ right.Valued R ∧
      ∀ state, domain.contains state = (left.contains state || right.contains state)
  | .diffView whole part domain =>
    whole.Valued R ∧ part.Valued R ∧ ∀ state, domain.contains state = whole.contains state

theorem Fits.valued {R : Reading A} {n : Nat} {m : StateMap C} (h : m.Fits R n) : m.Valued R := by
  induction m with
  | dense start values count => exact fun state a ha => (h.2 state a ha).2
  | sparse values count => exact fun state a ha => (h.2 state a ha).2
  | span range value count => exact h.2.2
  | single only value count => exact h.2.2
  | constant domain value => exact h.2
  | empty count => trivial
  | interView left right domain ihl ihr => exact ⟨ihl h.1, ihr h.2.1, h.2.2.2⟩
  | unionView left right domain ihl ihr => exact ⟨ihl h.1, ihr h.2.1, h.2.2.2⟩
  | diffView whole part domain ihw ihp => exact ⟨ihw h.1, ihp h.2.1, h.2.2.2⟩

/-- The colors that a map has at a state. -/
def colorsAt (R : Reading A) (m : StateMap C) (state : Nat) : Finset Nat :=
  match m.get? A state with
  | .ok value => R.colorsOf value
  | .error _ => ∅

theorem colorsAt_eq {R : Reading A} {m : StateMap C} {state : Nat} {value : Option C}
    (h : m.get? A state = .ok value) : m.colorsAt R state = R.colorsOf value := by
  rw [colorsAt, h]

section Lookup

variable {R : Reading A} {n : Nat}

/-- Looking up a state succeeds, and finds a value exactly at the states that the map contains. -/
theorem Valued.get?_spec {m : StateMap C} (h : m.Valued R) (state : Nat) :
    ∃ value, m.get? A state = .ok value ∧ R.Accepts value ∧ value.isSome = m.contains state := by
  induction m with
  | dense start values count =>
    refine ⟨slot? start values state, rfl, ?_, rfl⟩
    exact h state
  | sparse values count =>
    refine ⟨values[state]?, rfl, ?_, by simp [contains]⟩
    exact h state
  | span range value count =>
    refine ⟨if range.contains state then some value else none, rfl, R.accepts_ite h _, ?_⟩
    by_cases hin : range.contains state <;> simp [contains, hin]
  | single only value count =>
    refine ⟨if state = only then some value else none, rfl, R.accepts_ite h _, ?_⟩
    by_cases hin : state = only <;> simp [contains, hin]
  | constant domain value =>
    refine ⟨if domain.contains state then some value else none, rfl, R.accepts_ite h _, ?_⟩
    by_cases hin : domain.contains state <;> simp [contains, hin]
  | empty count => exact ⟨none, rfl, R.accepts_none, rfl⟩
  | interView left right domain ihl ihr =>
    obtain ⟨hleft, hright, hdomain⟩ := h
    obtain ⟨a, ha, haccept, hsome⟩ := ihl hleft
    obtain ⟨b, hb, hbccept, hbsome⟩ := ihr hright
    cases hin : domain.contains state with
    | false => exact ⟨none, by simp [get?, hin, pure, Except.pure], R.accepts_none, by simp [contains, hin]⟩
    | true =>
      have hboth : a.isSome = true ∧ b.isSome = true := by
        rw [hsome, hbsome, ← Bool.and_eq_true, ← hdomain, hin]
      obtain ⟨x, rfl⟩ := Option.isSome_iff_exists.1 hboth.1
      obtain ⟨y, rfl⟩ := Option.isSome_iff_exists.1 hboth.2
      obtain ⟨r, hr, hrIn, _⟩ := R.inter_spec (haccept x rfl) (hbccept y rfl)
      exact ⟨some r, by simp [get?, hin, ha, hb, hr, pure, Except.pure], R.accepts_some hrIn,
        by simp [contains, hin]⟩
  | unionView left right domain ihl ihr =>
    obtain ⟨hleft, hright, hdomain⟩ := h
    obtain ⟨a, ha, haccept, hsome⟩ := ihl hleft
    obtain ⟨b, hb, hbccept, hbsome⟩ := ihr hright
    cases hin : domain.contains state with
    | false => exact ⟨none, by simp [get?, hin, pure, Except.pure], R.accepts_none, by simp [contains, hin]⟩
    | true =>
      obtain ⟨r, hr, hrAccept, _, hrSome⟩ := R.unionOpt_spec haccept hbccept
      refine ⟨r, by simp [get?, hin, ha, hb, hr], hrAccept, ?_⟩
      rw [hrSome, hsome, hbsome, ← hdomain]
      rfl
  | diffView whole part domain ihw ihp =>
    obtain ⟨hwhole, hpart, hdomain⟩ := h
    obtain ⟨a, ha, haccept, hsome⟩ := ihw hwhole
    obtain ⟨b, hb, hbccept, _⟩ := ihp hpart
    cases hin : domain.contains state with
    | false => exact ⟨none, by simp [get?, hin, pure, Except.pure], R.accepts_none, by simp [contains, hin]⟩
    | true =>
      have hwholeSome : a.isSome = true := by rw [hsome, ← hdomain, hin]
      obtain ⟨x, rfl⟩ := Option.isSome_iff_exists.1 hwholeSome
      cases b with
      | none =>
        exact ⟨some x, by simp [get?, hin, ha, hb, pure, Except.pure], haccept, by simp [contains, hin]⟩
      | some y =>
        obtain ⟨r, hr, hrIn, _⟩ := R.diff_spec (haccept x rfl) (hbccept y rfl)
        exact ⟨some r, by simp [get?, hin, ha, hb, hr, pure, Except.pure], R.accepts_some hrIn,
          by simp [contains, hin]⟩

theorem Fits.get?_spec {m : StateMap C} (h : m.Fits R n) (state : Nat) :
    ∃ value, m.get? A state = .ok value ∧ R.Accepts value ∧ value.isSome = m.contains state :=
  h.valued.get?_spec state

/-- A map contains states of its space only. -/
theorem Fits.lt_of_contains {m : StateMap C} (h : m.Fits R n) {state : Nat}
    (hstate : m.contains state = true) : state < n := by
  cases m with
  | dense start values count =>
    obtain ⟨a, ha⟩ := Option.isSome_iff_exists.1 hstate
    exact (h.2 state a ha).1
  | sparse values count =>
    have hsome : (values[state]?).isSome = true := by simpa [contains] using hstate
    obtain ⟨a, ha⟩ := Option.isSome_iff_exists.1 hsome
    exact (h.2 state a ha).1
  | span range value count =>
    have hrange := (Span.contains_iff range state).1 hstate
    have hstop := h.2.1 (by omega)
    omega
  | single only value count =>
    have heq : state = only := by simpa [contains] using hstate
    exact heq ▸ h.2.1
  | constant domain value => exact h.1 ▸ StateSet.lt_of_contains hstate
  | empty count => cases hstate
  | interView left right domain => exact h.2.2.1 ▸ StateSet.lt_of_contains hstate
  | unionView left right domain => exact h.2.2.1 ▸ StateSet.lt_of_contains hstate
  | diffView whole part domain => exact h.2.2.1 ▸ StateSet.lt_of_contains hstate

theorem Fits.stateCount_eq {m : StateMap C} (h : m.Fits R n) : m.stateCount = n := by
  cases m with
  | dense start values count => exact h.1
  | sparse values count => exact h.1
  | span range value count => exact h.1
  | single only value count => exact h.1
  | constant domain value => exact h.1
  | empty count => exact h
  | interView left right domain => exact h.2.2.1
  | unionView left right domain => exact h.2.2.1
  | diffView whole part domain => exact h.2.2.1

theorem Valued.colorsAt_eq_empty {m : StateMap C} (h : m.Valued R) {state : Nat}
    (hstate : m.contains state = false) : m.colorsAt R state = ∅ := by
  obtain ⟨value, hvalue, _, hsome⟩ := h.get?_spec state
  rw [hstate, Option.isSome_eq_false_iff, Option.isNone_iff_eq_none] at hsome
  rw [colorsAt_eq hvalue, hsome]
  rfl

theorem Fits.colorsAt_eq_empty {m : StateMap C} (h : m.Fits R n) {state : Nat}
    (hstate : m.contains state = false) : m.colorsAt R state = ∅ :=
  h.valued.colorsAt_eq_empty hstate

theorem Fits.contains_of_mem {m : StateMap C} (h : m.Fits R n) {state c : Nat}
    (hc : c ∈ m.colorsAt R state) : m.contains state = true := by
  by_contra hnot
  rw [h.colorsAt_eq_empty (by simpa using hnot)] at hc
  exact absurd hc (Finset.notMem_empty c)

theorem Fits.colorsAt_subset {m : StateMap C} (h : m.Fits R n) (state : Nat) :
    m.colorsAt R state ⊆ R.palette := by
  obtain ⟨value, hvalue, haccept, _⟩ := h.get?_spec state
  rw [colorsAt_eq hvalue]
  exact R.colorsOf_subset haccept

end Lookup

end ColoredCtl.StateMap

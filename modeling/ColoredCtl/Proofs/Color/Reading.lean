import ColoredCtl.Proofs.Outcome
import Mathlib.Data.Finset.Card

/-!
Color values read as finite sets.

A `Reading` of an algebra says which values belong to its domain and which colors are in them, and
that the operations on such values succeed and are the operations on sets. All that is shown about
maps, models and workers rests on a reading only, so it holds for every algebra that has one.
-/

namespace ColoredCtl.Color

variable {C : Type}

/-- How the values of an algebra are read as sets of colors. -/
structure Reading (A : Algebra C) where
  /-- The colors of the domain. -/
  palette : Finset Nat
  /-- The values that belong to the domain. -/
  InDomain : C → Prop
  /-- The colors in a value. -/
  colors : C → Finset Nat
  colors_subset : ∀ {a}, InDomain a → colors a ⊆ palette
  inDomain_full : InDomain A.full.get
  colors_full : colors A.full.get = palette
  inDomain_empty : InDomain A.empty.get
  colors_empty : colors A.empty.get = ∅
  inter_spec : ∀ {a b}, InDomain a → InDomain b →
    ∃ r, A.inter a b = .ok r ∧ InDomain r ∧ colors r = colors a ∩ colors b
  union_spec : ∀ {a b}, InDomain a → InDomain b →
    ∃ r, A.union a b = .ok r ∧ InDomain r ∧ colors r = colors a ∪ colors b
  diff_spec : ∀ {a b}, InDomain a → InDomain b →
    ∃ r, A.diff a b = .ok r ∧ InDomain r ∧ colors r = colors a \ colors b
  nonempty_spec : ∀ {a}, InDomain a →
    ∃ found, A.nonempty a = .ok found ∧ (found = true ↔ (colors a).Nonempty)
  /-- A chain of growing values is no longer than the algebra says. -/
  card_palette_le : palette.card ≤ A.height

namespace Reading

variable {A : Algebra C} (R : Reading A)

/-- Values of the domain with the same colors are equal. -/
def Faithful : Prop := ∀ {a b}, R.InDomain a → R.InDomain b → R.colors a = R.colors b → a = b

/-- The algebra tells whether values of the domain have the same colors. -/
def Equates : Prop := ∀ {a b}, R.InDomain a → R.InDomain b →
  ∃ found, A.equal a b = .ok found ∧ (found = true ↔ R.colors a = R.colors b)

/-- The colors in an optional value, where a missing one is the empty set. -/
def colorsOf : Option C → Finset Nat
  | none => ∅
  | some a => R.colors a

@[simp] theorem colorsOf_none : R.colorsOf none = ∅ := rfl

@[simp] theorem colorsOf_some (a : C) : R.colorsOf (some a) = R.colors a := rfl

/-- The optional values whose value, if there is one, belongs to the domain. -/
def Accepts (value : Option C) : Prop := ∀ a, value = some a → R.InDomain a

theorem accepts_none : R.Accepts none := by
  intro a h
  cases h

theorem accepts_some {a : C} (h : R.InDomain a) : R.Accepts (some a) := by
  intro b hb
  cases hb
  exact h

theorem accepts_ite {a : C} (h : R.InDomain a) (p : Prop) [Decidable p] :
    R.Accepts (if p then some a else none) := by
  split
  · exact R.accepts_some h
  · exact R.accepts_none

theorem colorsOf_subset {value : Option C} (h : R.Accepts value) :
    R.colorsOf value ⊆ R.palette := by
  cases value with
  | none => exact Finset.empty_subset _
  | some a => exact R.colors_subset (h a rfl)

/-- The value itself is given back exactly when it has a color. -/
theorem nonempty?_spec {a : C} (ha : R.InDomain a) :
    ∃ r, A.nonempty? a = .ok r ∧ R.Accepts r ∧ R.colorsOf r = R.colors a ∧
      (∀ b, r = some b → b = a ∧ (R.colors a).Nonempty) := by
  obtain ⟨found, hfound, hiff⟩ := R.nonempty_spec ha
  cases found with
  | false =>
    have hempty : R.colors a = ∅ := by
      rw [← Finset.not_nonempty_iff_eq_empty, ← hiff]
      simp
    exact ⟨none, by simp [Operations.nonempty?, hfound, pure, Except.pure], R.accepts_none,
      by simp [hempty], by simp⟩
  | true =>
    have hnonempty : (R.colors a).Nonempty := hiff.1 rfl
    refine ⟨some a, by simp [Operations.nonempty?, hfound, pure, Except.pure], R.accepts_some ha,
      rfl, ?_⟩
    intro b hb
    cases hb
    exact ⟨rfl, hnonempty⟩

/-- A value grows by another one exactly when that has a new color, and then becomes their union. -/
theorem grow?_spec {current : Option C} {new : C} (hcurrent : R.Accepts current)
    (hnew : R.InDomain new) :
    (A.grow? current new = .ok none ∧ R.colors new ⊆ R.colorsOf current) ∨
      ∃ grown, A.grow? current new = .ok (some grown) ∧ R.InDomain grown ∧
        R.colors grown = R.colorsOf current ∪ R.colors new ∧
        ¬R.colors new ⊆ R.colorsOf current := by
  cases current with
  | none =>
    obtain ⟨found, hfound, hiff⟩ := R.nonempty_spec hnew
    cases found with
    | false =>
      left
      refine ⟨by simp [Operations.grow?, hfound, pure, Except.pure], ?_⟩
      have hempty : ¬(R.colors new).Nonempty := by
        rw [← hiff]
        simp
      simp [Finset.not_nonempty_iff_eq_empty.1 hempty]
    | true =>
      right
      refine ⟨new, by simp [Operations.grow?, hfound, pure, Except.pure], hnew, by simp, ?_⟩
      have hnonempty : (R.colors new).Nonempty := hiff.1 rfl
      simpa [Finset.subset_empty] using hnonempty.ne_empty
  | some a =>
    have ha : R.InDomain a := hcurrent a rfl
    obtain ⟨gained, hgained, hgainedIn, hgainedColors⟩ := R.diff_spec hnew ha
    obtain ⟨found, hfound, hiff⟩ := R.nonempty_spec hgainedIn
    cases found with
    | false =>
      left
      refine ⟨by simp [Operations.grow?, Operations.maybeNonempty, hgained, hfound, pure,
        Except.pure], ?_⟩
      have hempty : ¬(R.colors gained).Nonempty := by
        rw [← hiff]
        simp
      rw [hgainedColors, Finset.not_nonempty_iff_eq_empty, Finset.sdiff_eq_empty_iff_subset] at hempty
      exact hempty
    | true =>
      right
      obtain ⟨grown, hgrown, hgrownIn, hgrownColors⟩ := R.union_spec ha hnew
      refine ⟨grown, by simp [Operations.grow?, Operations.maybeNonempty, hgained, hfound, hgrown,
        pure, Except.pure], hgrownIn, hgrownColors, ?_⟩
      have hnonempty : (R.colors gained).Nonempty := hiff.1 rfl
      intro hsubset
      rw [colorsOf_some, ← Finset.sdiff_eq_empty_iff_subset] at hsubset
      rw [hgainedColors, hsubset] at hnonempty
      exact Finset.not_nonempty_empty hnonempty

theorem unionOpt_spec {a b : Option C} (ha : R.Accepts a) (hb : R.Accepts b) :
    ∃ r, A.unionOpt a b = .ok r ∧ R.Accepts r ∧ R.colorsOf r = R.colorsOf a ∪ R.colorsOf b ∧
      r.isSome = (a.isSome || b.isSome) := by
  cases a with
  | none => exact ⟨b, rfl, hb, by simp, by simp⟩
  | some a =>
    cases b with
    | none => exact ⟨some a, rfl, ha, by simp, rfl⟩
    | some b =>
      obtain ⟨r, hr, hrIn, hrColors⟩ := R.union_spec (ha a rfl) (hb b rfl)
      exact ⟨some r, by simp [Operations.unionOpt, hr, pure, Except.pure], R.accepts_some hrIn,
        hrColors, rfl⟩

/-- Taking away a value that may be missing. -/
theorem diffOpt_spec {a : C} (ha : R.InDomain a) {v : Option C} (hv : R.Accepts v) :
    ∃ left, (match v with
        | some b => A.diff a b
        | none => pure a : Except Misuse C) = .ok left ∧ R.InDomain left ∧
      R.colors left = R.colors a \ R.colorsOf v := by
  cases v with
  | none => exact ⟨a, rfl, ha, by simp⟩
  | some b => exact R.diff_spec ha (hv b rfl)

/-- The union of a list of values has the colors of all of them. -/
theorem unionAll_spec {start : C} {l : List C} (hstart : R.InDomain start)
    (hl : ∀ a ∈ l, R.InDomain a) :
    ∃ r, A.unionAll start l = .ok r ∧ R.InDomain r ∧
      ∀ c, c ∈ R.colors r ↔ c ∈ R.colors start ∨ ∃ a ∈ l, c ∈ R.colors a := by
  have hrun := foldlM_run (f := A.union) (l := l) (s := start)
    (fun done r => R.InDomain r ∧
      ∀ c, c ∈ R.colors r ↔ c ∈ R.colors start ∨ ∃ a ∈ done, c ∈ R.colors a)
    ⟨hstart, by simp⟩ ?_
  · exact hrun
  · intro done a rest r hsplit ⟨hr, hcolors⟩
    obtain ⟨next, hnext, hnextIn, hnextColors⟩ := R.union_spec hr (hl a (by simp [hsplit]))
    refine ⟨next, hnext, hnextIn, ?_⟩
    intro c
    rw [hnextColors, Finset.mem_union, hcolors]
    simp only [List.mem_append, List.mem_singleton, or_and_right, exists_or, exists_eq_left, or_assoc]

end Reading

end ColoredCtl.Color

import ColoredCtl.Color.Truth
import ColoredCtl.Proofs.Color.Explicit

namespace ColoredCtl.Color

/-- The reading of truth values: the set with the only color, or the empty set. -/
def Reading.truth : Reading Algebra.truth where
  palette := {0}
  InDomain _ := True
  colors a := if a then {0} else ∅
  colors_subset {a} _ := by cases a <;> simp
  inDomain_full := trivial
  colors_full := if_pos rfl
  inDomain_empty := trivial
  colors_empty := if_neg Bool.false_ne_true
  inter_spec {a b} _ _ := ⟨a && b, rfl, trivial, by cases a <;> cases b <;> simp⟩
  union_spec {a b} _ _ := ⟨a || b, rfl, trivial, by cases a <;> cases b <;> simp⟩
  diff_spec {a b} _ _ := ⟨a && !b, rfl, trivial, by cases a <;> cases b <;> simp⟩
  nonempty_spec {a} _ := ⟨a, rfl, by cases a <;> simp⟩
  card_palette_le := Nat.le_refl 1

/-- The only color is in a truth value that is true. -/
theorem Reading.mem_colors_truth (a : Bool) : 0 ∈ Reading.truth.colors a ↔ a = true := by
  cases a <;> simp [Reading.truth]

theorem Reading.faithful_truth : Reading.truth.Faithful := by
  intro a b _ _ h
  rw [Bool.eq_iff_iff, ← mem_colors_truth a, ← mem_colors_truth b, h]

theorem Reading.equates_truth : Reading.truth.Equates := by
  intro a b ha hb
  refine ⟨a == b, rfl, ?_⟩
  rw [beq_iff_eq]
  exact ⟨fun heq => heq ▸ rfl, Reading.faithful_truth ha hb⟩

namespace Domain

/-- The color sets of a domain. -/
def Value : Domain → Type
  | .truth => Bool
  | .explicit _ => ColorSet

/-- The algebra of a domain. -/
def algebra : (domain : Domain) → Algebra domain.Value
  | .truth => .truth
  | .explicit n => .explicit n

/-- How the color sets of a domain are read. -/
def reading : (domain : Domain) → Reading domain.algebra
  | .truth => .truth
  | .explicit n => .explicit n

theorem faithful (domain : Domain) : domain.reading.Faithful := by
  cases domain with
  | truth => exact Reading.faithful_truth
  | explicit n => exact Reading.faithful_explicit n

theorem equates (domain : Domain) : domain.reading.Equates := by
  cases domain with
  | truth => exact Reading.equates_truth
  | explicit n => exact Reading.equates_explicit n

/-- The algebra of a domain accepts the values of the domain. -/
theorem accept_eq {domain : Domain} {a : domain.Value} (ha : domain.reading.InDomain a) :
    domain.algebra.accept a = .ok () := by
  cases domain with
  | truth => rfl
  | explicit n => exact ColorSet.InDomain.accept_eq ha

@[simp] theorem domain_algebra (domain : Domain) : domain.algebra.domain = domain := by
  cases domain <;> rfl

end Domain

end ColoredCtl.Color

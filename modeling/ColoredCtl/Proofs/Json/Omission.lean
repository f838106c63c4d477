import ColoredCtl.Json.Record
import Mathlib.Data.List.Forall2

/-!
JSON values with some of their fields left out.

A table gives fields their defaults. Wherever a field has its default it may be left out, in the objects of a value at
any depth. A field of an object is then still there, with a value in which fields may be missing in turn, or it has
its default. A reader that supplies the defaults gives the same result for all these values.
-/

namespace ColoredCtl.Json

/-- Some fields are left out that have their defaults, and the values of the others are related. -/
inductive OmitsFields (defaults : List (String × Json)) (R : Json → Json → Prop) :
    List (String × Json) → List (String × Json) → Prop
  | nil : OmitsFields defaults R [] []
  | keep {name : String} {j k : Json} {fs gs : List (String × Json)} (value : R j k)
      (rest : OmitsFields defaults R fs gs) : OmitsFields defaults R ((name, j) :: fs) ((name, k) :: gs)
  | drop {name : String} {j : Json} {fs gs : List (String × Json)} (default : defaults.lookup name = some j)
      (rest : OmitsFields defaults R fs gs) : OmitsFields defaults R ((name, j) :: fs) gs

/-- Some fields that have their defaults are left out, anywhere in the value. -/
inductive Omits (defaults : List (String × Json)) : Json → Json → Prop
  | same (j : Json) : Omits defaults j j
  | array {js ks : List Json} (items : List.Forall₂ (Omits defaults) js ks) : Omits defaults (.array js) (.array ks)
  | object {fs gs : List (String × Json)} (fields : OmitsFields defaults (Omits defaults) fs gs) :
      Omits defaults (.object fs) (.object gs)

variable {defaults : List (String × Json)} {R : Json → Json → Prop} {fs gs : List (String × Json)} {name : String}
  {j k : Json}

theorem lookup_cons_of_ne {first : String} (h : name ≠ first) : ((first, j) :: fs).lookup name = fs.lookup name := by
  rw [List.lookup_cons, beq_eq_false_iff_ne.2 h]

theorem depth_le_of_lookup (h : fs.lookup name = some j) : j.depth ≤ depthFields fs := by
  induction fs with
  | nil => cases h
  | cons field fs ih =>
    obtain ⟨first, j'⟩ := field
    rw [List.lookup_cons] at h
    rw [depthFields]
    split at h
    · cases h
      omega
    · have hle := ih h
      omega

namespace OmitsFields

theorem refl (hR : ∀ j, R j j) (fs : List (String × Json)) : OmitsFields defaults R fs fs := by
  induction fs with
  | nil => exact .nil
  | cons field fs ih => exact .keep (hR field.2) ih

theorem lookup_eq_none (h : OmitsFields defaults R fs gs) (hname : name ∉ fs.map (·.1)) : gs.lookup name = none := by
  induction h with
  | nil => rfl
  | keep _ _ ih =>
    rw [List.map_cons, List.mem_cons, not_or] at hname
    rw [lookup_cons_of_ne hname.1]
    exact ih hname.2
  | drop _ _ ih =>
    rw [List.map_cons, List.mem_cons, not_or] at hname
    exact ih hname.2

/-- A field is still there, or it has its default. -/
theorem lookup (h : OmitsFields defaults R fs gs) (hnames : (fs.map (·.1)).Nodup) (hj : fs.lookup name = some j) :
    (∃ k, gs.lookup name = some k ∧ R j k) ∨ (defaults.lookup name = some j ∧ gs.lookup name = none) := by
  induction h with
  | nil => cases hj
  | @keep first _ k _ _ hvalue _ ih =>
    rw [List.map_cons, List.nodup_cons] at hnames
    by_cases hname : name = first
    · subst hname
      rw [List.lookup_cons_self] at hj
      cases hj
      exact .inl ⟨k, List.lookup_cons_self, hvalue⟩
    · rw [lookup_cons_of_ne hname] at hj ⊢
      exact ih hnames.2 hj
  | @drop first _ _ _ hdefault hrest ih =>
    rw [List.map_cons, List.nodup_cons] at hnames
    by_cases hname : name = first
    · subst hname
      rw [List.lookup_cons_self] at hj
      cases hj
      exact .inr ⟨hdefault, hrest.lookup_eq_none hnames.1⟩
    · rw [lookup_cons_of_ne hname] at hj
      exact ih hnames.2 hj

end OmitsFields

/-- The second list has the fields of the first, whose names are different, without some that have their defaults. -/
structure Trims (defaults fs gs : List (String × Json)) : Prop where
  omits : OmitsFields defaults (Omits defaults) fs gs
  nodup : (fs.map (·.1)).Nodup

theorem Omits.exists_fields (h : Omits defaults (.object fs) k) :
    ∃ gs, k = .object gs ∧ OmitsFields defaults (Omits defaults) fs gs := by
  cases h with
  | same => exact ⟨fs, rfl, .refl .same fs⟩
  | object hfields => exact ⟨_, rfl, hfields⟩

theorem Omits.exists_trims (h : Omits defaults (.object fs) k) (hnames : (fs.map (·.1)).Nodup) :
    ∃ gs, k = .object gs ∧ Trims defaults fs gs := by
  obtain ⟨gs, hk, hfields⟩ := h.exists_fields
  exact ⟨gs, hk, hfields, hnames⟩

/-- Nothing in the value can be left out. -/
def Rigid (defaults : List (String × Json)) (j : Json) : Prop := ∀ k, Omits defaults j k → k = j

/-- The value has no parts. -/
def isScalar : Json → Bool
  | .array _ | .object _ => false
  | _ => true

theorem rigid_of_isScalar (hj : j.isScalar = true) : Rigid defaults j := by
  intro k h
  cases h with
  | same => rfl
  | array => cases hj
  | object => cases hj

theorem rigid_array {js : List Json} (hjs : ∀ j ∈ js, Rigid defaults j) : Rigid defaults (.array js) := by
  intro k h
  cases h with
  | same => rfl
  | @array _ ks hitems =>
    have hsame : ks = js := by
      induction hitems with
      | nil => rfl
      | cons hitem _ ih =>
        rw [hjs _ List.mem_cons_self _ hitem, ih fun j hj => hjs j (List.mem_cons_of_mem _ hj)]
    rw [hsame]

theorem rigid_object_nil : Rigid defaults (.object []) := by
  intro k h
  obtain ⟨gs, rfl, hfields⟩ := h.exists_fields
  cases hfields
  rfl

theorem rigid_object_cons (hname : defaults.lookup name = none) (hj : Rigid defaults j)
    (hfs : Rigid defaults (.object fs)) : Rigid defaults (.object ((name, j) :: fs)) := by
  intro k h
  obtain ⟨gs, rfl, hfields⟩ := h.exists_fields
  cases hfields with
  | keep hvalue hrest =>
    cases hj _ hvalue
    cases hfs _ (.object hrest)
    rfl
  | drop hdefault _ =>
    rw [hname] at hdefault
    cases hdefault

/-- A field without a default has not its default. -/
theorem ne_default (h : defaults.lookup name = none) : defaults.lookup name ≠ some j := by
  rw [h]
  exact (Option.some_ne_none j).symm

namespace Trims

variable {α : Type} {names : List String} {read : Json → Option α} {r : Option α}

/-- The kind of a variant stays. -/
theorem variant? (h : Trims defaults fs gs) (tag : String) (kinds : List String) {kind : String}
    (htag : fs.lookup tag = some (.string kind)) (hkeep : defaults.lookup tag = none) (hkind : kind ∈ kinds)
    (nested : Bool) : Json.variant? nested tag kinds (.object gs) = some (kind, .object gs) := by
  obtain ⟨k, hk, hvalue⟩ | ⟨hdefault, _⟩ := h.omits.lookup h.nodup htag
  · obtain rfl := rigid_of_isScalar rfl k hvalue
    simp [Json.variant?, hk, tag?, hkind]
  · rw [hkeep] at hdefault
    cases hdefault

/-- A field that has not its default is read as before, if its value is. -/
theorem fieldOf (h : Trims defaults fs gs) (name : String) (hj : fs.lookup name = some j)
    (hkeep : defaults.lookup name ≠ some j) {bound : Nat} (hbound : depthFields gs ≤ bound)
    (hread : ∀ k, Omits defaults j k → k.depth ≤ bound → read k = r) :
    Json.fieldOf names name read (.object gs) = r := by
  obtain ⟨k, hk, hvalue⟩ | ⟨hdefault, _⟩ := h.omits.lookup h.nodup hj
  · have hresult := hread k hvalue (Nat.le_trans (depth_le_of_lookup hk) hbound)
    simp [Json.fieldOf, recordField?, hk, hresult]
  · exact absurd hdefault hkeep

theorem fieldOf_scalar (h : Trims defaults fs gs) (name : String) (hj : fs.lookup name = some j)
    (hkeep : defaults.lookup name ≠ some j) (hscalar : j.isScalar = true) :
    Json.fieldOf names name read (.object gs) = read j := by
  apply h.fieldOf name hj hkeep (Nat.le_refl _)
  intro k hk _
  rw [rigid_of_isScalar hscalar k hk]

/-- A field that may be missing is read as before, if what is supplied for it is its default. -/
theorem fieldOr (h : Trims defaults fs gs) (name : String) {default : α}
    (hdefault : (defaults.lookup name).bind read = some default) (hj : fs.lookup name = some j)
    (hrigid : Rigid defaults j) (hread : read j = r) : Json.fieldOr names name default read (.object gs) = r := by
  obtain ⟨k, hk, hvalue⟩ | ⟨hleft, hnone⟩ := h.omits.lookup h.nodup hj
  · simp [Json.fieldOr, recordField?, hk, hrigid k hvalue, hread]
  · rw [hleft, Option.bind_some, hread] at hdefault
    simp [Json.fieldOr, recordField?, hnone, hdefault]

end Trims

end ColoredCtl.Json

import ColoredCtl.Check.Validate
import ColoredCtl.Model.Explicit
import ColoredCtl.Proofs.Outcome

/-!
Where the parts of a formula stand, and which names are bound there.

A place is a part of a formula, at any depth, with the names that are bound around it, the innermost one
first. Only the inner part of a binder or of a quantifier is under its name; the bound of a quantifier is
not. The places of a formula are listed from left to right, and validation finds the first one that holds a
name that is not bound there, or an atom that the model does not know.
-/

namespace ColoredCtl

variable {C : Type}

namespace Formula

/-- The immediate parts of a formula from left to right, each with the names that are bound for it. -/
def parts : Formula → List (List String × Formula)
  | .top | .bottom | .atom _ | .reference _ => []
  | .not f | .next _ _ f | .jump _ f => [([], f)]
  | .and f g | .or f g | .implies f g | .equal f g | .hold _ _ _ f g => [([], f), ([], g)]
  | .bind name f => [([name], f)]
  | .forAll name bound f | .forSome name bound f => [([], bound), ([name], f)]

/-- The second formula stands somewhere in the first one, and the names are bound there. -/
inductive Stands (f : Formula) : List String → Formula → Prop
  | here : Stands f [] f
  | inside {names new : List String} {g h : Formula} (outer : Stands f names g)
      (part : (new, h) ∈ g.parts) : Stands f (new ++ names) h

/-- All places of a formula, from left to right, inside of a scope. -/
def places (f : Formula) (names : List String) : List (List String × Formula) :=
  (names, f) :: match f with
    | .top | .bottom | .atom _ | .reference _ => []
    | .not g | .next _ _ g | .jump _ g => g.places names
    | .and g h | .or g h | .implies g h | .equal g h | .hold _ _ _ g h => g.places names ++ h.places names
    | .bind name g => g.places (name :: names)
    | .forAll name g h | .forSome name g h => g.places names ++ h.places (name :: names)

/-- A formula comes first, and then the places of its parts. -/
theorem places_eq (f : Formula) (names : List String) :
    f.places names = (names, f) :: f.parts.flatMap fun part => part.2.places (part.1 ++ names) := by
  cases f <;>
    simp only [parts, List.flatMap_cons, List.flatMap_nil, List.nil_append, List.append_nil,
      List.singleton_append] <;> rfl

theorem self_mem_places (f : Formula) (names : List String) : (names, f) ∈ f.places names := by
  rw [places_eq]
  exact List.mem_cons_self

/-- Induction from the parts of a formula to the formula. -/
theorem induction_parts {P : Formula → Prop} (step : ∀ f, (∀ part ∈ f.parts, P part.2) → P f)
    (f : Formula) : P f := by
  induction f with
  | top | bottom | atom | reference => exact step _ fun _ hpart => absurd hpart List.not_mem_nil
  | not f ih | next quantifier course f ih | bind name f ih | jump name f ih =>
    exact step _ (List.forall_mem_singleton.2 ih)
  | and f g ihf ihg | or f g ihf ihg | implies f g ihf ihg | equal f g ihf ihg
  | hold quantifier weak course f g ihf ihg | forAll name f g ihf ihg | forSome name f g ihf ihg =>
    exact step _ (List.forall_mem_cons.2 ⟨ihf, List.forall_mem_singleton.2 ihg⟩)

/-- What stands in a part stands in the formula, under the names that are bound for the part as well. -/
theorem Stands.of_part {f g : Formula} {part : List String × Formula} {names : List String}
    (hpart : part ∈ f.parts) (h : part.2.Stands names g) : f.Stands (names ++ part.1) g := by
  induction h with
  | here =>
    have hstands := Stands.inside .here hpart
    rwa [List.append_nil] at hstands
  | inside _ hinner ih =>
    rw [List.append_assoc]
    exact .inside ih hinner

theorem part_mem_places {f g h : Formula} {names inner new : List String}
    (hplace : (inner, g) ∈ f.places names) (hpart : (new, h) ∈ g.parts) :
    (new ++ inner, h) ∈ f.places names := by
  induction f using induction_parts generalizing names with
  | step f ih =>
    rw [places_eq, List.mem_cons, List.mem_flatMap] at hplace ⊢
    obtain hhere | ⟨part, hmem, hplace⟩ := hplace
    · cases hhere
      exact .inr ⟨(new, h), hpart, self_mem_places h _⟩
    · exact .inr ⟨part, hmem, ih part hmem hplace⟩

theorem stands_of_mem_places {f g : Formula} {names inner : List String}
    (h : (inner, g) ∈ f.places names) : ∃ bound, f.Stands bound g ∧ inner = bound ++ names := by
  induction f using induction_parts generalizing names with
  | step f ih =>
    rw [places_eq, List.mem_cons, List.mem_flatMap] at h
    obtain hhere | ⟨part, hmem, hplace⟩ := h
    · cases hhere
      exact ⟨[], .here, rfl⟩
    · obtain ⟨bound, hstands, rfl⟩ := ih part hmem hplace
      exact ⟨bound ++ part.1, hstands.of_part hmem, by simp⟩

/-- The places of a formula are where its parts stand. -/
theorem mem_places {f g : Formula} {names : List String} :
    (names, g) ∈ f.places [] ↔ f.Stands names g := by
  constructor
  · intro h
    obtain ⟨bound, hstands, rfl⟩ := stands_of_mem_places h
    rwa [List.append_nil]
  · intro h
    induction h with
    | here => exact self_mem_places f []
    | inside _ hpart ih => exact part_mem_places ih hpart

end Formula

namespace ExplicitModel

/-- The model knows the atom: its variable is defined, or its dimension is one of those declared, if any
are. -/
def Knows (M : ExplicitModel C) : Atom → Prop
  | .float name _ _ => name ∈ M.definitions.map (·.1)
  | .transition name _ _ => ∀ declared ∈ M.dimensions, name ∈ declared

instance (M : ExplicitModel C) : DecidablePred M.Knows
  | .float name _ _ => inferInstanceAs (Decidable (name ∈ M.definitions.map (·.1)))
  | .transition name _ _ => inferInstanceAs (Decidable (∀ declared ∈ M.dimensions, name ∈ declared))

end ExplicitModel

/-- What is told of an atom that is not known. -/
def Atom.unknown : Atom → ModelError
  | .float name _ _ => .unknownVariable name
  | .transition name _ _ => .unknownDirection name

namespace ExplicitModel

theorem lookup_definitions_isSome {M : ExplicitModel C} {name : String} :
    (M.definitions.lookup name).isSome = true ↔ name ∈ M.definitions.map (·.1) := by
  simp

theorem checkName_eq (dimensions : Option (List String)) (name : String) :
    Builder.checkName dimensions name =
      if ∀ declared ∈ dimensions, name ∈ declared then .ok () else .error (.unknownDirection name) := by
  cases dimensions <;> simp [Builder.checkName]

theorem checkAtom_eq (A : Color.Algebra C) (M : ExplicitModel C) (a : Atom) :
    (M.toModel A).checkAtom a = if M.Knows a then .ok () else .error a.unknown := by
  cases a with
  | float name comparison threshold =>
    simp only [toModel, lookup_definitions_isSome]
    rfl
  | transition name flow facet => exact checkName_eq M.dimensions name

theorem checkAtom_eq_ok_iff {A : Color.Algebra C} {M : ExplicitModel C} {a : Atom} :
    (M.toModel A).checkAtom a = .ok () ↔ M.Knows a := by
  rw [checkAtom_eq]
  by_cases h : M.Knows a <;> simp [h]

end ExplicitModel

theorem checkBound_eq_ok_iff {names : List String} {name : String} :
    checkBound names name = .ok () ↔ name ∈ names := by
  by_cases h : name ∈ names <;> simp [checkBound, h]

/-- What is wrong at a place: the name that stands there is not bound, or the atom is not known. -/
def ExplicitModel.violation? (M : ExplicitModel C) (place : List String × Formula) : Option CheckError :=
  match place.2 with
  | .reference name | .jump name _ => if name ∈ place.1 then none else some (.unboundVariable name)
  | .atom a => if M.Knows a then none else some (.unknownAtom a a.unknown)
  | _ => none

/-- The first thing that is wrong with a formula, from left to right. -/
def ExplicitModel.firstViolation? (M : ExplicitModel C) (f : Formula) : Option CheckError :=
  (f.places []).findSome? M.violation?

/-- Every name in the formula is that of a binder or a quantifier around it, and the model knows every
atom. -/
structure Formula.Evaluable (M : ExplicitModel C) (f : Formula) : Prop where
  reference_bound : ∀ {names name}, f.Stands names (.reference name) → name ∈ names
  jump_bound : ∀ {names name g}, f.Stands names (.jump name g) → name ∈ names
  atom_known : ∀ {names a}, f.Stands names (.atom a) → M.Knows a

/-- A refusal, if there is a reason for one. -/
def refuse : Option CheckError → Except CheckError Unit
  | none => .ok ()
  | some cause => .error cause

@[simp] theorem refuse_eq_ok_iff {reason : Option CheckError} : refuse reason = .ok () ↔ reason = none := by
  cases reason <;> simp [refuse]

@[simp] theorem refuse_eq_error_iff {reason : Option CheckError} {cause : CheckError} :
    refuse reason = .error cause ↔ reason = some cause := by
  cases reason <;> simp [refuse]

theorem refuse_or (first second : Option CheckError) :
    refuse (first.or second) = (refuse first >>= fun _ => refuse second) := by
  cases first <;> rfl

namespace ExplicitModel

variable (A : Color.Algebra C) (M : ExplicitModel C)

theorem checkBound_eq (names : List String) (name : String) :
    checkBound names name = refuse (if name ∈ names then none else some (.unboundVariable name)) := by
  by_cases h : name ∈ names <;> simp [checkBound, refuse, h]

/-- Validation refuses the first thing that is wrong. -/
theorem validate_eq_refuse (f : Formula) (names : List String) :
    f.validate (M.toModel A) names = refuse ((f.places names).findSome? M.violation?) := by
  induction f generalizing names with
  | top | bottom => rfl
  | atom a =>
    rw [Formula.validate, checkAtom_eq]
    by_cases h : M.Knows a <;> simp [Formula.places, violation?, h, refuse]
  | reference name =>
    rw [Formula.validate, checkBound_eq]
    by_cases h : name ∈ names <;> simp [Formula.places, violation?, h]
  | not f ih | next quantifier course f ih => exact ih names
  | and f g ihf ihg | or f g ihf ihg | implies f g ihf ihg | equal f g ihf ihg
  | hold quantifier weak course f g ihf ihg =>
    rw [Formula.validate, ihf, ihg, ← refuse_or, ← List.findSome?_append]
    rfl
  | bind name f ih => exact ih (name :: names)
  | jump name f ih =>
    rw [Formula.validate, ih, checkBound_eq, ← refuse_or]
    by_cases h : name ∈ names <;> simp [Formula.places, violation?, h]
  | forAll name bound f ihb ihf | forSome name bound f ihb ihf =>
    rw [Formula.validate, ihb, ihf, ← refuse_or, ← List.findSome?_append]
    rfl

variable {A M}

/-- A formula with which nothing is wrong can be evaluated. -/
theorem firstViolation?_eq_none_iff {f : Formula} : M.firstViolation? f = none ↔ f.Evaluable M := by
  rw [firstViolation?, List.findSome?_eq_none_iff]
  constructor
  · intro h
    refine ⟨fun {names name} hstands => ?_, fun {names name g} hstands => ?_, fun {names a} hstands => ?_⟩
    · simpa [violation?] using h _ (Formula.mem_places.2 hstands)
    · simpa [violation?] using h _ (Formula.mem_places.2 hstands)
    · simpa [violation?] using h _ (Formula.mem_places.2 hstands)
  · intro h place hplace
    obtain ⟨names, g⟩ := place
    have hstands := Formula.mem_places.1 hplace
    cases g with
    | atom a => simp [violation?, h.atom_known hstands]
    | reference name => simp [violation?, h.reference_bound hstands]
    | jump name g => simp [violation?, h.jump_bound hstands]
    | _ => rfl

/-- Exactly the formulas that can be evaluated are valid. -/
theorem validate_eq_ok_iff {f : Formula} : f.validate (M.toModel A) [] = .ok () ↔ f.Evaluable M := by
  rw [validate_eq_refuse, refuse_eq_ok_iff]
  exact firstViolation?_eq_none_iff

/-- Of several formulas, the first one with which something is wrong counts. -/
theorem forM_validate_eq_refuse (formulas : List Formula) :
    (formulas.forM fun f => f.validate (M.toModel A) []) = refuse (formulas.findSome? M.firstViolation?) := by
  induction formulas with
  | nil => rfl
  | cons f formulas ih =>
    have hcons : (f :: formulas).findSome? M.firstViolation? =
        (M.firstViolation? f).or (formulas.findSome? M.firstViolation?) := by
      cases h : M.firstViolation? f <;> simp [h]
    rw [hcons, refuse_or, ← ih, firstViolation?, ← validate_eq_refuse A]
    rfl

end ExplicitModel

end ColoredCtl

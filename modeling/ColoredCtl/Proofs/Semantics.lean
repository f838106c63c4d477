import ColoredCtl.Check.Evaluate
import ColoredCtl.Model.Explicit
import Mathlib.Order.FixedPoints
import Mathlib.Order.CompletePartialOrder

/-!
What formulas mean.

For one color, a model with parameters is a plain transition system: a `Kripke` structure.
`Formula.Holds` is satisfaction in a structure, by recursion on the formula. An until formula is the
least fixed point of its expansion law, and time that runs backward turns all steps around.
-/

namespace ColoredCtl

/-- A transition system without parameters. -/
structure Kripke where
  stateCount : Nat
  /-- There is a step with a label from one state to another. -/
  Step : Label → (source target : Nat) → Prop
  /-- An atom holds at a state. -/
  Atom : Atom → (state : Nat) → Prop

namespace Kripke

/-- There is a step that a temporal operator may follow. -/
def Leads (S : Kripke) (course : Course) (s t : Nat) : Prop :=
  ∃ label, course.direction.accepts label = true ∧
    if course.forward then S.Step label s t else S.Step label t s

/-- Some step leads to a set of states; or every step does, and there is one. -/
def Next (S : Kripke) (quantifier : PathQuantifier) (course : Course) (Z : Set Nat) (s : Nat) : Prop :=
  match quantifier with
  | .some => ∃ t, S.Leads course s t ∧ t ∈ Z
  | .all => (∃ t, S.Leads course s t) ∧ ∀ t, S.Leads course s t → t ∈ Z

theorem Next.mono {S : Kripke} {quantifier : PathQuantifier} {course : Course} {Y Z : Set Nat}
    (hsub : Y ⊆ Z) {s : Nat} (h : S.Next quantifier course Y s) : S.Next quantifier course Z s := by
  cases quantifier with
  | some =>
    obtain ⟨t, hlead, ht⟩ := h
    exact ⟨t, hlead, hsub ht⟩
  | all => exact ⟨h.1, fun t hlead => hsub (h.2 t hlead)⟩

/-- The expansion law of until: a state is in the set if `reach` holds there, if `path` does and the
next states are in the set, or, in the weak form, if `path` does and the paths end there. -/
def holdStep (S : Kripke) (quantifier : PathQuantifier) (weak : Bool) (course : Course)
    (path reach : Set Nat) : Set Nat →o Set Nat where
  toFun Z := {s | s ∈ reach ∨ (s ∈ path ∧ S.Next quantifier course Z s) ∨
    (weak = true ∧ s ∈ path ∧ ∀ t, ¬S.Leads course s t)}
  monotone' Y Z hsub s hs := by
    rcases hs with hs | hs | hs
    · exact .inl hs
    · exact .inr (.inl ⟨hs.1, hs.2.mono hsub⟩)
    · exact .inr (.inr hs)

/-- The states where `path` holds until `reach` does: the least set that the expansion law allows. -/
def hold (S : Kripke) (quantifier : PathQuantifier) (weak : Bool) (course : Course)
    (path reach : Set Nat) : Set Nat :=
  (S.holdStep quantifier weak course path reach).lfp

section Hold

variable {S : Kripke} {quantifier : PathQuantifier} {weak : Bool} {course : Course}
  {path reach Z : Set Nat} {s : Nat}

/-- The states where until holds obey its expansion law. -/
theorem mem_hold_iff : s ∈ S.hold quantifier weak course path reach ↔
    s ∈ reach ∨ (s ∈ path ∧ S.Next quantifier course (S.hold quantifier weak course path reach) s) ∨
      (weak = true ∧ s ∈ path ∧ ∀ t, ¬S.Leads course s t) := by
  have hfixed : S.holdStep quantifier weak course path reach (S.hold quantifier weak course path reach) =
      S.hold quantifier weak course path reach :=
    OrderHom.map_lfp _
  constructor
  · intro hs
    rw [← hfixed] at hs
    exact hs
  · intro hs
    rw [← hfixed]
    exact hs

theorem mem_or_mem_of_hold (h : s ∈ S.hold quantifier weak course path reach) : s ∈ path ∨ s ∈ reach := by
  rcases mem_hold_iff.1 h with hs | ⟨hs, _⟩ | ⟨_, hs, _⟩
  · exact .inr hs
  · exact .inl hs
  · exact .inl hs

/-- A set that the expansion law does not leave has all states where until holds. -/
theorem hold_subset (hreach : reach ⊆ Z) (hnext : ∀ s ∈ path, S.Next quantifier course Z s → s ∈ Z)
    (hweak : weak = true → ∀ s ∈ path, (∀ t, ¬S.Leads course s t) → s ∈ Z) :
    S.hold quantifier weak course path reach ⊆ Z := by
  apply OrderHom.lfp_le
  rintro s (hs | ⟨hs, hstep⟩ | ⟨hw, hs, hend⟩)
  · exact hreach hs
  · exact hnext s hs hstep
  · exact hweak hw s hs hend

end Hold

end Kripke

/-- A formula holds at a state, with the names standing for states. -/
def Formula.Holds (S : Kripke) : Formula → Env → (state : Nat) → Prop
  | .top, _, _ => True
  | .bottom, _, _ => False
  | .atom a, _, s => S.Atom a s
  | .reference name, env, s => env.lookup name = some s
  | .not f, env, s => ¬f.Holds S env s
  | .and f g, env, s => f.Holds S env s ∧ g.Holds S env s
  | .or f g, env, s => f.Holds S env s ∨ g.Holds S env s
  | .implies f g, env, s => f.Holds S env s → g.Holds S env s
  | .equal f g, env, s => f.Holds S env s ↔ g.Holds S env s
  | .next quantifier course f, env, s => S.Next quantifier course {t | f.Holds S env t} s
  | .hold quantifier weak course f g, env, s =>
    s ∈ S.hold quantifier weak course {t | f.Holds S env t} {t | g.Holds S env t}
  | .bind name f, env, s => f.Holds S ((name, s) :: env) s
  | .jump name f, env, _ => ∃ t, env.lookup name = some t ∧ f.Holds S env t
  | .forAll name bound f, env, s =>
    ∀ v < S.stateCount, bound.Holds S env v → f.Holds S ((name, v) :: env) s
  | .forSome name bound f, env, s =>
    ∃ v < S.stateCount, bound.Holds S env v ∧ f.Holds S ((name, v) :: env) s

section Explicit

variable {C : Type}

/-- The state that an edge flows out of, or into. -/
def Edge.endpoint (e : Edge C) : Flow → Nat
  | .out => e.source
  | .into => e.target

/-- The structure of the edges of a model whose bound is present. -/
def ExplicitModel.system (M : ExplicitModel C) (present : C → Prop) : Kripke where
  stateCount := M.stateCount
  Step label s t := ∃ e ∈ M.edges, e.source = s ∧ e.target = t ∧ e.label = label ∧ present e.bound
  Atom
    | .float name comparison threshold, s =>
      ∃ values x, M.definitions.lookup name = some values ∧ values[s]? = some x ∧
        comparison.holds x threshold = true
    | .transition name flow facet, s =>
      ∃ e ∈ M.edges, e.label = .move name facet ∧ e.endpoint flow = s ∧ present e.bound

end Explicit

end ColoredCtl

import ColoredCtl.Proofs.Color.Truth
import ColoredCtl.Proofs.Distribution

namespace ColoredCtl

open Color

section Bounds

variable {C D : Type}

/-- An edge with another bound in the place of its own. -/
@[simps] def Edge.mapBound (g : C → D) (e : Edge C) : Edge D := ⟨e.source, e.target, e.label, g e.bound⟩

@[simp] theorem Edge.endpoint_mapBound (g : C → D) (e : Edge C) (flow : Flow) :
    (e.mapBound g).endpoint flow = e.endpoint flow := by
  cases flow <;> rfl

namespace ExplicitModel

/-- The model with other bounds in the place of its own. -/
def mapBounds (g : C → D) (M : ExplicitModel C) : ExplicitModel D :=
  ⟨M.stateCount, M.edges.map (Edge.mapBound g), M.definitions, M.dimensions⟩

namespace Builder

/-- What has been said about a model so far, with other bounds. -/
def mapBounds (g : C → D) (b : Builder C) : Builder D :=
  ⟨b.stateCount, b.edges.map (Edge.mapBound g), b.definitions, b.dimensions⟩

variable (g : C → D) (b : Builder C)

@[simp] theorem mapBounds_start (stateCount : Nat) :
    (⟨stateCount, #[], [], none⟩ : Builder C).mapBounds g = ⟨stateCount, #[], [], none⟩ := by
  simp [mapBounds]

@[simp] theorem mapBounds_dimension (name : String) :
    (b.dimension name).mapBounds g = (b.mapBounds g).dimension name :=
  rfl

@[simp] theorem mapBounds_edge (source target : Nat) (label : Label) (bound : C) :
    (b.edge source target label bound).mapBounds g =
      (b.mapBounds g).edge source target label (g bound) := by
  simp [mapBounds, edge, Edge.mapBound]

@[simp] theorem mapBounds_define (name : String) (values : List Binary64) :
    (b.define name values).mapBounds g = (b.mapBounds g).define name values :=
  rfl

/-- Bounds do not matter for whether a model can be built. -/
theorem build_mapBounds {b : Builder C} {M : ExplicitModel C} (h : b.build = .ok M) :
    (b.mapBounds g).build = .ok (M.mapBounds g) := by
  have hedges : (b.mapBounds g).edges.toList.forM (b.mapBounds g).checkEdge =
      b.edges.toList.forM b.checkEdge := by
    rw [mapBounds, Array.toList_map, List.forM_eq_forM, List.forM_map]
    rfl
  obtain ⟨_, hvalues, h⟩ := bind_eq_ok_iff.1 h
  obtain ⟨_, hreserve, h⟩ := bind_eq_ok_iff.1 h
  obtain ⟨_, hchecked, h⟩ := bind_eq_ok_iff.1 h
  cases h
  refine bind_eq_ok_iff.2 ⟨(), hvalues, bind_eq_ok_iff.2 ⟨(), hreserve, bind_eq_ok_iff.2 ⟨(), ?_, ?_⟩⟩⟩
  · rw [hedges]
    exact hchecked
  · rw [mapBounds, Array.toList_map]
    rfl

end Builder

/-- The structure of the edges that are present is that of the edges whose own bound makes them so. -/
theorem system_mapBounds (g : C → D) (M : ExplicitModel C) (present : D → Prop) :
    (M.mapBounds g).system present = M.system fun bound => present (g bound) := by
  unfold system mapBounds
  congr 1
  · funext label s t
    simp
  · funext a s
    cases a with
    | float name comparison threshold => rfl
    | transition name flow facet =>
      simp

/-- The structure of one color is that of the model of the color. -/
theorem system_slice (M : ExplicitModel ColorSet) (c : Nat) :
    ((M.mapBounds fun bound => bound.contains c).system fun bound => 0 ∈ Reading.truth.colors bound) =
      M.system fun bound => bound.contains c = true := by
  simp only [system_mapBounds, Reading.mem_colors_truth]

end ExplicitModel

/-- Models that know the same atoms accept the same formulas. -/
theorem Formula.validate_congr {M : Model C} {N : Model D} (h : ∀ a, N.checkAtom a = M.checkAtom a)
    (f : Formula) (scope : List String) : f.validate N scope = f.validate M scope := by
  induction f generalizing scope <;> simp_all [validate]

/-- Bounds do not matter for which formulas are accepted. -/
theorem ExplicitModel.validate_mapBounds (A : Algebra C) (B : Algebra D) (g : C → D) (M : ExplicitModel C)
    (f : Formula) : f.validate ((M.mapBounds g).toModel B) [] = f.validate (M.toModel A) [] := by
  apply Formula.validate_congr
  intro a
  cases a <;> rfl

end Bounds

namespace StateMap

/-- A map has a color where its value has it. -/
theorem mem_colorsAt_explicit {n : Nat} {m : StateMap ColorSet} {s c : Nat} :
    c ∈ m.colorsAt (Reading.explicit n) s ↔
      ∃ a, m.get? (.explicit n) s = .ok (some a) ∧ a.contains c = true := by
  rw [mem_colorsAt_iff]
  simp only [← ColorSet.mem_members]
  rfl

/-- A map has the only color where its value is true. -/
theorem mem_colorsAt_truth {m : StateMap Bool} {s : Nat} :
    0 ∈ m.colorsAt Reading.truth s ↔ m.get? .truth s = .ok (some true) := by
  rw [mem_colorsAt_iff]
  simp only [Reading.mem_colors_truth]
  constructor
  · rintro ⟨a, ha, rfl⟩
    exact ha
  · exact fun ha => ⟨true, ha, rfl⟩

end StateMap

namespace Checker

variable {n : Nat} {b : ExplicitModel.Builder ColorSet} {M : ExplicitModel ColorSet} {f : Formula}
  {config : Config} {partitions : List Partition}

/-- What connects the workers carries truth values, if there are not too many of them for a frame. -/
theorem medium_carries_truth {N : ExplicitModel Bool} (hcount : 0 < config.partitions)
    (hall : Partition.all config.strategy config.partitions N.stateCount = .ok partitions)
    (hwire : config.transport = .serialized → 1 < config.partitions →
      N.stateCount ≤ 0x80000000 ∧ ∀ p ∈ partitions, p.localStates.length < 0x80000000) :
    (medium ⟨.truth, N.toModel .truth, config⟩).Carries config.partitions
      (Sendable Reading.truth N.stateCount (config.owner N.stateCount)) := by
  refine medium_carries_of_codes hcount hall fun htransport hseveral => ?_
  obtain ⟨hstates, hlocal⟩ := hwire htransport hseveral
  exact ⟨hstates, Algebra.truth_codes, hlocal⟩

end Checker

end ColoredCtl

import ColoredCtl.Proofs.Check.Verdict
import ColoredCtl.Proofs.Color.Explicit

namespace ColoredCtl

open Color

/-- A model with bounds of the domain serves, for each color, the structure of the edges whose bound has
the color. -/
theorem ExplicitModel.Proper.serves_explicit {n : Nat} {M : ExplicitModel ColorSet} (hM : M.Proper)
    (hbounds : ∀ e ∈ M.edges, e.bound.InDomain n) :
    (M.toModel (.explicit n)).Serves (Reading.explicit n)
      fun c => M.system fun bound => bound.contains c = true := by
  have hserves := hM.serves (R := Reading.explicit n) hbounds
  have hpresent : ∀ c, (fun bound : ColorSet => c ∈ (Reading.explicit n).colors bound) =
      fun bound => bound.contains c = true :=
    fun c => funext fun bound => propext (bound.mem_members c)
  simp only [hpresent] at hserves
  exact hserves

namespace Checker

variable {n : Nat} {b : ExplicitModel.Builder ColorSet} {M : ExplicitModel ColorSet} {f : Formula}

/-- A check finds, for each color, the states where the formula holds in the structure of the edges
whose bound has the color. There must be room for a table of all states: a model with more of them, each
with its rows of transitions, does not fit the memory of any machine. -/
theorem verifyMerged_iff_holds (hbuild : b.build = .ok M) (hbounds : ∀ e ∈ M.edges, e.bound.InDomain n)
    (htable : M.stateCount ≤ Capacity.tableLimit)
    (hvalid : f.validate (M.toModel (.explicit n)) [] = .ok ()) :
    ∃ m, verifyMerged ⟨.explicit n, M.toModel (.explicit n), {}⟩ f = .ok m ∧
      ∀ s < M.stateCount, ∀ c < n,
        (∃ a, m.get? (.explicit n) s = .ok (some a) ∧ a.contains c = true) ↔
          f.Holds (M.system fun bound => bound.contains c = true) [] s := by
  have hproper := ExplicitModel.proper_of_build hbuild
  have hserves := hproper.serves_explicit hbounds
  have hall := Partition.all_uniform_one hproper.stateCount_le
  obtain ⟨m, hm, hshows⟩ := verifyMerged_spec hserves htable {} Nat.one_pos (by decide) hall
    (Medium.solo_carries _) hvalid
  refine ⟨m, hm, ?_⟩
  intro s hs c hc
  have hmem : (∃ a, m.get? (.explicit n) s = .ok (some a) ∧ a.contains c = true) ↔
      c ∈ m.colorsAt (Reading.explicit n) s := by
    rw [StateMap.mem_colorsAt_iff]
    simp only [← ColorSet.mem_members]
    rfl
  rw [hmem, hshows.mem_iff]
  constructor
  · exact fun hholds => hholds.2.2
  · exact fun hholds => ⟨hs, Finset.mem_range.2 hc, hholds⟩

/-- A step for all colors, and a step back for one of them. -/
theorem inDomain_there_and_back : ∀ e ∈ [(⟨0, 1, .move "x" .up, .full 3⟩ : Edge ColorSet),
    ⟨1, 0, .move "x" .down, .full 1⟩], e.bound.InDomain 3 := by
  have hone : (ColorSet.full 1).InDomain 3 := ColorSet.inDomain_full_of_le rfl (by decide)
  simp [ColorSet.inDomain_full, hone]

/-- Two states with a step there for all colors and a step back for one of them: which states return to
themselves, whichever of them is named. -/
theorem verifyMerged_iff_holds_return : ∃ M : ExplicitModel ColorSet,
    ExplicitModel.Builder.build ⟨2,
        #[⟨0, 1, .move "x" .up, .full 3⟩, ⟨1, 0, .move "x" .down, .full 1⟩], [], none⟩ = .ok M ∧
      (∀ e ∈ M.edges, e.bound.InDomain 3) ∧ M.stateCount ≤ Capacity.tableLimit ∧
      Formula.validate (M.toModel (.explicit 3)) (.forAll "v" .top (.implies (.reference "v")
        (.hold .all false {} .top (.next .some {} (.reference "v"))))) [] = .ok () ∧
      ∃ m, verifyMerged ⟨.explicit 3, M.toModel (.explicit 3), {}⟩ (.forAll "v" .top
          (.implies (.reference "v") (.hold .all false {} .top (.next .some {} (.reference "v"))))) =
            .ok m ∧
        ∀ s < M.stateCount, ∀ c < 3,
          (∃ a, m.get? (.explicit 3) s = .ok (some a) ∧ a.contains c = true) ↔
            Formula.Holds (M.system fun bound => bound.contains c = true) (.forAll "v" .top
              (.implies (.reference "v") (.hold .all false {} .top (.next .some {} (.reference "v")))))
              [] s := by
  exact ⟨_, rfl, inDomain_there_and_back, by decide, rfl, verifyMerged_iff_holds (b := ⟨2,
    #[⟨0, 1, .move "x" .up, .full 3⟩, ⟨1, 0, .move "x" .down, .full 1⟩], [], none⟩) rfl
    inDomain_there_and_back (by decide) rfl⟩

end Checker

end ColoredCtl

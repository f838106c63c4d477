import ColoredCtl.Proofs.Check.Refusal
import ColoredCtl.Proofs.Check.Transport
import ColoredCtl.Proofs.Soundness

namespace ColoredCtl

open Color

/-- Maps of explicit color sets that show the same, and contain only states that have a color, have the
same values. -/
theorem StateMap.Shows.get?_eq {n count : Nat} {Φ : Nat → Nat → Prop} {m k : StateMap ColorSet}
    (hm : m.Shows (Reading.explicit n) count (fun s => ∃ c, Φ s c) Φ)
    (hk : k.Shows (Reading.explicit n) count (fun s => ∃ c, Φ s c) Φ) (s : Nat) :
    m.get? (.explicit n) s = k.get? (.explicit n) s := by
  obtain ⟨a, ha, haccepts, hacolors⟩ := hm.get?_spec s
  obtain ⟨b, hb, hbccepts, hbcolors⟩ := hk.get?_spec s
  have hsame : ∀ c, c ∈ (Reading.explicit n).colorsOf a ↔ c ∈ (Reading.explicit n).colorsOf b :=
    fun c => (hacolors c).trans (hbcolors c).symm
  rw [ha, hb]
  apply congrArg Except.ok
  cases a with
  | none =>
    cases b with
    | none => rfl
    | some b =>
      obtain ⟨c, hc⟩ := hk.within (hk.fits.contains_iff.2 ⟨b, hb⟩)
      exact absurd ((hsame c).2 ((hbcolors c).2 hc)) (by simp)
  | some a =>
    cases b with
    | none =>
      obtain ⟨c, hc⟩ := hm.within (hm.fits.contains_iff.2 ⟨a, ha⟩)
      exact absurd ((hsame c).1 ((hacolors c).2 hc)) (by simp)
    | some b =>
      refine congrArg some ((haccepts a rfl).ext (hbccepts b rfl) fun c => ?_)
      rw [Bool.eq_iff_iff, ← ColorSet.mem_members, ← ColorSet.mem_members]
      exact hsame c

namespace Checker

variable {n : Nat} {b : ExplicitModel.Builder ColorSet} {M : ExplicitModel ColorSet} {f : Formula}

/-- What connects the workers carries what they send, if it fits the frames they send it in. -/
theorem medium_carries {config : Config} (hcount : 0 < config.partitions) {partitions : List Partition}
    (hall : Partition.all config.strategy config.partitions M.stateCount = .ok partitions)
    (hwire : config.transport = .serialized → 1 < config.partitions →
      M.stateCount ≤ 0x80000000 ∧ ColorSet.wordCount n < 0x80000000 ∧
        ∀ p ∈ partitions, p.localStates.length < 0x80000000) :
    (medium ⟨.explicit n, M.toModel (.explicit n), config⟩).Carries config.partitions
      (Sendable (Reading.explicit n) M.stateCount (config.owner M.stateCount)) := by
  refine medium_carries_of_codes hcount hall fun htransport hseveral => ?_
  obtain ⟨hstates, hwords, hlocal⟩ := hwire htransport hseveral
  exact ⟨hstates, ColorSet.explicit_codes hwords, hlocal⟩

end Checker

end ColoredCtl

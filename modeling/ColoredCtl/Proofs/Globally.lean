import ColoredCtl.Proofs.Check.Refusal
import ColoredCtl.Proofs.Lockstep
import ColoredCtl.Proofs.Paths
import Mathlib.Logic.Relation

/-!
What holds all along.

That a formula holds along some path, or wherever steps lead to, is said by what paths reach: it is not so that
every path, or some path, reaches the contrary. Here it is said about the paths themselves. A maximal path
along which the formula holds is found where the least fixed point for "every path reaches the contrary"
leaves states out.
-/

namespace ColoredCtl

open Color

namespace Kripke

variable {S : Kripke} {course : Course} {Z : Set Nat} {s : Nat}

theorem reflTransGen_of_steps {run : Nat → Nat} {m : Nat} (h : ∀ j < m, S.Leads course (run j) (run (j + 1))) :
    Relation.ReflTransGen (S.Leads course) (run 0) (run m) := by
  induction m with
  | zero => exact .refl
  | succ m ih => exact (ih fun j hj => h j (Nat.lt_succ_of_lt hj)).tail (h m (Nat.lt_succ_self m))

/-- Some path reaches a set if steps lead to a state of the set. -/
theorem somePath_univ_iff : S.SomePath false course Set.univ Z s ↔
    ∃ t ∈ Z, Relation.ReflTransGen (S.Leads course) s t := by
  constructor
  · rintro ⟨run, m, rfl, hsteps, hend | ⟨hweak, _⟩⟩
    · exact ⟨run m, hend, reflTransGen_of_steps fun j hj => (hsteps j hj).1⟩
    · cases hweak
  · rintro ⟨t, ht, hreach⟩
    induction hreach using Relation.ReflTransGen.head_induction_on with
    | refl => exact ⟨fun _ => t, 0, rfl, by simp, .inl ht⟩
    | head hleads _ ih => exact .cons trivial hleads ih

/-- Not every path leaves a set if there is a maximal path in it. -/
theorem not_everyPath_compl_iff : ¬S.EveryPath false course Set.univ Zᶜ s ↔
    ∃ run length, S.MaximalPath course s run length ∧ ∀ j : Nat, j ≤ length → run j ∈ Z := by
  simp [EveryPath]

end Kripke

namespace Formula

variable {S : Kripke} {course : Course} {inner : Formula} {env : Env} {s : Nat}

/-- A formula holds along some path if there is a maximal path with states where it holds. -/
theorem holds_someGlobally_iff : (someGlobally course inner).Holds S env s ↔
    ∃ run length, S.MaximalPath course s run length ∧ ∀ j : Nat, j ≤ length → inner.Holds S env (run j) := by
  have hholds : (someGlobally course inner).Holds S env s ↔
      s ∉ S.hold .all false course Set.univ {t | inner.Holds S env t}ᶜ := Iff.rfl
  rw [hholds, Kripke.mem_hold_all_iff, Kripke.not_everyPath_compl_iff]
  rfl

/-- A formula holds along all paths if it holds wherever steps lead to. -/
theorem holds_allGlobally_iff : (allGlobally course inner).Holds S env s ↔
    ∀ t, Relation.ReflTransGen (S.Leads course) s t → inner.Holds S env t := by
  have hholds : (allGlobally course inner).Holds S env s ↔
      s ∉ S.hold .some false course Set.univ {t | inner.Holds S env t}ᶜ := Iff.rfl
  rw [hholds, Kripke.mem_hold_some_iff, Kripke.somePath_univ_iff]
  constructor
  · intro hnone t hreach
    by_contra hnot
    exact hnone ⟨t, hnot, hreach⟩
  · rintro hevery ⟨t, hnot, hreach⟩
    exact hnot (hevery t hreach)

end Formula

namespace Checker

variable {C : Type}

/-- A check gives the maps of the workers, and these have, at the states that each worker owns, the colors
for which something holds there. No value is empty. -/
structure Decides (c : Checker C) (R : Reading c.algebra) (partitions : List Partition) (f : Formula)
    (Holds : (color state : Nat) → Prop) (maps : Fin c.config.partitions → StateMap C) : Prop extends
    c.Gives R partitions f maps where
  shows : ∀ i : Fin c.config.partitions, (maps i).Shows R c.model.stateCount
    (fun s => ∃ color, (s < c.model.stateCount ∧ c.config.owner c.model.stateCount s = i) ∧
      color ∈ R.palette ∧ Holds color s)
    fun s color => (s < c.model.stateCount ∧ c.config.owner c.model.stateCount s = i) ∧
      color ∈ R.palette ∧ Holds color s

/-- A check decides what its formula means. -/
theorem exists_decides (c : Checker C) {R : Reading c.algebra} {S : Nat → Kripke}
    (hserves : c.model.Serves R S) (htable : c.model.stateCount ≤ Capacity.tableLimit)
    (hcodes : c.algebra.Codes R.InDomain ∨ c.algebra.Garbles R.InDomain) (hcount : 0 < c.config.partitions)
    (hhub : c.config.partitions < 0x20000000) {partitions : List Partition}
    (hall : Partition.all c.config.strategy c.config.partitions c.model.stateCount = .ok partitions)
    {f : Formula} (hvalid : f.validate c.model [] = .ok ()) {Holds : (color state : Nat) → Prop}
    (hmeans : ∀ color s, f.Holds (S color) [] s ↔ Holds color s) :
    ∃ maps, c.Decides R partitions f Holds maps := by
  obtain ⟨T, results, hruns⟩ := exists_runs c hserves htable hcodes hcount hall hvalid
  refine ⟨fun i => (results i).1, hruns.gives hcount hhub hall hvalid, fun i => ?_⟩
  have htabulates := (hruns.tabulates i).congr fun s color =>
    and_congr_right fun _ => and_congr_right fun _ => hmeans color s
  exact htabulates.shows

variable {domain : Domain} {b : ExplicitModel.Builder domain.Value} {M : ExplicitModel domain.Value}
  {config : Config} {partitions : List Partition} {f : Formula}

end Checker

end ColoredCtl

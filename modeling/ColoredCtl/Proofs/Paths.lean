import ColoredCtl.Proofs.Semantics
import Mathlib.Data.ENat.Basic
import Mathlib.Logic.Function.Iterate

namespace ColoredCtl.Kripke

/-- Along some path that begins at the state, `path` holds until `reach` does; in the weak form, the path
may also end where no step leads on, if `path` holds there too. -/
def SomePath (S : Kripke) (weak : Bool) (course : Course) (path reach : Set Nat) (s : Nat) : Prop :=
  ∃ (run : Nat → Nat) (m : Nat), run 0 = s ∧
    (∀ j < m, S.Leads course (run j) (run (j + 1)) ∧ run j ∈ path) ∧
    (run m ∈ reach ∨ (weak = true ∧ run m ∈ path ∧ ∀ t, ¬S.Leads course (run m) t))

/-- A path that begins at the state and does not end where a step leads on. It has `length` steps. -/
structure MaximalPath (S : Kripke) (course : Course) (s : Nat) (run : Nat → Nat) (length : ℕ∞) : Prop where
  start : run 0 = s
  step : ∀ j : Nat, j < length → S.Leads course (run j) (run (j + 1))
  stuck : ∀ m : Nat, length = m → ∀ t, ¬S.Leads course (run m) t

/-- Along every maximal path that begins at the state, `path` holds until `reach` does; in the weak form,
the path may also be finite, with `path` at all of its states. -/
def EveryPath (S : Kripke) (weak : Bool) (course : Course) (path reach : Set Nat) (s : Nat) : Prop :=
  ∀ (run : Nat → Nat) (length : ℕ∞), S.MaximalPath course s run length →
    (∃ m : Nat, m ≤ length ∧ run m ∈ reach ∧ ∀ j < m, run j ∈ path) ∨
      (weak = true ∧ ∃ m : Nat, length = m ∧ ∀ j ≤ m, run j ∈ path)

/-- What until says about the paths that begin at a state. -/
def Paths (S : Kripke) : PathQuantifier → (weak : Bool) → Course → (path reach : Set Nat) → Nat → Prop
  | .some => S.SomePath
  | .all => S.EveryPath

variable {S : Kripke} {weak : Bool} {course : Course} {path reach : Set Nat} {s : Nat}

section SomePath

/-- A path with a step in front. -/
theorem SomePath.cons {t : Nat} (hs : s ∈ path) (hlead : S.Leads course s t)
    (ht : S.SomePath weak course path reach t) : S.SomePath weak course path reach s := by
  obtain ⟨run, m, rfl, hsteps, hend⟩ := ht
  refine ⟨fun j => Nat.casesOn j s run, m + 1, rfl, ?_, hend⟩
  intro j hj
  cases j with
  | zero => exact ⟨hlead, hs⟩
  | succ j => exact hsteps j (by omega)

/-- Until holds for some path, as its expansion law says, exactly where there is such a path. -/
theorem mem_hold_some_iff : s ∈ S.hold .some weak course path reach ↔ S.SomePath weak course path reach s := by
  constructor
  · intro hs
    refine hold_subset (Z := {t | S.SomePath weak course path reach t}) ?_ ?_ ?_ hs
    · intro t ht
      exact ⟨fun _ => t, 0, rfl, by simp, .inl ht⟩
    · rintro t ht ⟨u, hlead, hu⟩
      exact .cons ht hlead hu
    · intro hweak t ht hstuck
      exact ⟨fun _ => t, 0, rfl, by simp, .inr ⟨hweak, ht, hstuck⟩⟩
  · rintro ⟨run, m, rfl, hsteps, hend⟩
    induction m generalizing run with
    | zero =>
      rw [mem_hold_iff]
      exact hend.imp_right .inr
    | succ m ih =>
      obtain ⟨hlead, hpath⟩ := hsteps 0 (Nat.succ_pos m)
      have hrest := ih (fun j => run (j + 1)) (fun j hj => hsteps (j + 1) (Nat.succ_lt_succ hj)) hend
      exact mem_hold_iff.2 (.inr (.inl ⟨hpath, _, hlead, hrest⟩))

end SomePath

section EveryPath

/-- What is left of a maximal path after a step. -/
theorem MaximalPath.tail {run : Nat → Nat} {length : ℕ∞} (h : S.MaximalPath course s run (length + 1)) :
    S.MaximalPath course (run 1) (fun j => run (j + 1)) length where
  start := rfl
  step j hj := h.step (j + 1) (by
    rw [Nat.cast_add, Nat.cast_one]
    exact (ENat.add_lt_add_iff_right ENat.one_ne_top).2 hj)
  stuck m hm := h.stuck (m + 1) (by rw [hm, Nat.cast_add, Nat.cast_one])

/-- A maximal path from a state with a step has a step. -/
theorem MaximalPath.exists_succ {run : Nat → Nat} {length : ℕ∞} (h : S.MaximalPath course s run length)
    {t : Nat} (hlead : S.Leads course s t) : ∃ rest, length = rest + 1 := by
  have hne : length ≠ 0 := by
    intro hzero
    exact h.stuck 0 hzero t (by rwa [h.start])
  obtain ⟨rest, hrest⟩ := exists_add_of_le (Order.one_le_iff_ne_zero.2 hne)
  exact ⟨rest, by rw [hrest, add_comm]⟩

/-- Steps that are chosen at each state where there is one make a maximal path. -/
theorem exists_maximalPath {next : Nat → Nat} (hnext : ∀ t u, S.Leads course t u → S.Leads course t (next t))
    (s : Nat) : ∃ length, S.MaximalPath course s (fun j => next^[j] s) length := by
  classical
  have hstep (j : Nat) (hlead : ∃ t, S.Leads course (next^[j] s) t) :
      S.Leads course (next^[j] s) (next^[j + 1] s) := by
    obtain ⟨t, ht⟩ := hlead
    rw [Function.iterate_succ_apply']
    exact hnext _ t ht
  by_cases hend : ∃ m, ∀ t, ¬S.Leads course (next^[m] s) t
  · refine ⟨(Nat.find hend : Nat), rfl, ?_, ?_⟩
    · intro j hj
      exact hstep j (not_forall_not.1 (Nat.find_min hend (by exact_mod_cast hj)))
    · intro m hm
      obtain rfl : Nat.find hend = m := by exact_mod_cast hm
      exact Nat.find_spec hend
  · refine ⟨⊤, rfl, ?_, ?_⟩
    · intro j _
      exact hstep j (not_forall_not.1 fun hstuck => hend ⟨j, hstuck⟩)
    · intro m hm
      exact absurd hm (ENat.top_ne_natCast m)

/-- There is a maximal path that leaves a set wherever a step does. -/
theorem exists_maximalPath_leaving (S : Kripke) (course : Course) (Z : Set Nat) (s : Nat) :
    ∃ run length, S.MaximalPath course s run length ∧
      ∀ j t, S.Leads course (run j) t → t ∉ Z → run (j + 1) ∉ Z := by
  have hchoice (t : Nat) : ∃ u, (∀ v, S.Leads course t v → S.Leads course t u) ∧
      ∀ v, S.Leads course t v → v ∉ Z → u ∉ Z := by
    by_cases hout : ∃ v, S.Leads course t v ∧ v ∉ Z
    · obtain ⟨v, hlead, hv⟩ := hout
      exact ⟨v, fun _ _ => hlead, fun _ _ _ => hv⟩
    · by_cases hlead : ∃ v, S.Leads course t v
      · obtain ⟨v, hv⟩ := hlead
        exact ⟨v, fun _ _ => hv, fun w hw hnot => absurd ⟨w, hw, hnot⟩ hout⟩
      · exact ⟨t, fun v hv => absurd ⟨v, hv⟩ hlead, fun v hv => absurd ⟨v, hv⟩ hlead⟩
  choose next hnext hleaves using hchoice
  obtain ⟨length, hmaximal⟩ := exists_maximalPath hnext s
  refine ⟨_, length, hmaximal, ?_⟩
  intro j t hlead ht
  rw [Function.iterate_succ_apply']
  exact hleaves _ t hlead ht

/-- Every path from a state goes on with a path from a next one. -/
theorem EveryPath.cons {t : Nat} (hs : s ∈ path) (hlead : S.Leads course s t)
    (hevery : ∀ u, S.Leads course s u → S.EveryPath weak course path reach u) :
    S.EveryPath weak course path reach s := by
  intro run length hmaximal
  obtain ⟨rest, rfl⟩ := hmaximal.exists_succ hlead
  have hstart : run 0 ∈ path := by rwa [hmaximal.start]
  have hfirst : S.Leads course s (run 1) := by
    have := hmaximal.step 0 (by simp)
    rwa [hmaximal.start] at this
  obtain ⟨m, hm, hreach, hpath⟩ | ⟨hweak, m, rfl, hpath⟩ := hevery _ hfirst _ _ hmaximal.tail
  · refine .inl ⟨m + 1, by exact_mod_cast add_le_add_left hm 1, hreach, ?_⟩
    intro j hj
    cases j with
    | zero => exact hstart
    | succ j => exact hpath j (by omega)
  · refine .inr ⟨hweak, m + 1, by norm_cast, ?_⟩
    intro j hj
    cases j with
    | zero => exact hstart
    | succ j => exact hpath j (by omega)

/-- The only maximal path from a state without a step has no step. -/
theorem EveryPath.of_stuck (hweak : weak = true) (hs : s ∈ path) (hstuck : ∀ t, ¬S.Leads course s t) :
    S.EveryPath weak course path reach s := by
  intro run length hmaximal
  have hzero : length = 0 := by
    by_contra hne
    have hfirst := hmaximal.step 0 (pos_iff_ne_zero.2 hne)
    rw [hmaximal.start] at hfirst
    exact hstuck _ hfirst
  refine .inr ⟨hweak, 0, hzero, ?_⟩
  intro j hj
  obtain rfl : j = 0 := by omega
  rwa [hmaximal.start]

/-- A state outside where `path` holds, with a step, has a step that stays outside. -/
theorem exists_leads_not_mem_hold (hs : s ∉ S.hold .all weak course path reach) (hpath : s ∈ path) {t : Nat}
    (hlead : S.Leads course s t) :
    ∃ u, S.Leads course s u ∧ u ∉ S.hold .all weak course path reach := by
  by_contra hnone
  push Not at hnone
  exact hs (mem_hold_iff.2 (.inr (.inl ⟨hpath, ⟨t, hlead⟩, hnone⟩)))

/-- A path that leaves the set wherever it can stays outside as long as `path` holds. -/
theorem MaximalPath.not_mem_hold {run : Nat → Nat} {length : ℕ∞} (h : S.MaximalPath course s run length)
    (hleaves : ∀ j t, S.Leads course (run j) t → t ∉ S.hold .all weak course path reach →
      run (j + 1) ∉ S.hold .all weak course path reach)
    (hs : s ∉ S.hold .all weak course path reach) {m : Nat} (hm : m ≤ length)
    (hpath : ∀ j < m, run j ∈ path) : run m ∉ S.hold .all weak course path reach := by
  induction m with
  | zero => rwa [h.start]
  | succ m ih =>
    have hlt : (m : ℕ∞) < length := lt_of_lt_of_le (by exact_mod_cast Nat.lt_succ_self m) hm
    have hout := ih (le_of_lt hlt) fun j hj => hpath j (by omega)
    obtain ⟨t, ht, hnot⟩ := exists_leads_not_mem_hold hout (hpath m (Nat.lt_succ_self m)) (h.step m hlt)
    exact hleaves m t ht hnot

/-- Until holds for all paths, as its expansion law says, exactly where it does for all maximal ones. -/
theorem mem_hold_all_iff : s ∈ S.hold .all weak course path reach ↔ S.EveryPath weak course path reach s := by
  constructor
  · intro hs
    refine hold_subset (Z := {t | S.EveryPath weak course path reach t}) ?_ ?_ ?_ hs
    · intro t ht run length hmaximal
      exact .inl ⟨0, zero_le, by rwa [hmaximal.start], by simp⟩
    · rintro t ht ⟨⟨u, hlead⟩, hevery⟩
      exact .cons ht hlead hevery
    · intro hweak t ht hstuck
      exact .of_stuck hweak ht hstuck
  · intro hevery
    by_contra hs
    obtain ⟨run, length, hmaximal, hleaves⟩ :=
      exists_maximalPath_leaving S course (S.hold .all weak course path reach) s
    obtain ⟨m, hm, hreach, hpath⟩ | ⟨hweak, m, rfl, hpath⟩ := hevery run length hmaximal
    · exact hmaximal.not_mem_hold hleaves hs hm hpath (mem_hold_iff.2 (.inl hreach))
    · refine hmaximal.not_mem_hold hleaves hs le_rfl (fun j hj => hpath j (Nat.le_of_lt hj)) ?_
      exact mem_hold_iff.2 (.inr (.inr ⟨hweak, hpath m le_rfl, hmaximal.stuck m rfl⟩))

end EveryPath

/-- Until, as its expansion law says, is what it says about paths. -/
theorem mem_hold_iff_paths {quantifier : PathQuantifier} :
    s ∈ S.hold quantifier weak course path reach ↔ S.Paths quantifier weak course path reach s := by
  cases quantifier with
  | some => exact mem_hold_some_iff
  | all => exact mem_hold_all_iff

end ColoredCtl.Kripke

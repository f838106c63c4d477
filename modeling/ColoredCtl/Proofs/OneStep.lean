import ColoredCtl.Proofs.Interchange

namespace ColoredCtl

open Color

namespace Kripke

variable {S : Kripke} {quantifier : PathQuantifier} {course : Course} {Z : Set Nat} {s : Nat}

theorem Next.exists_leads (h : S.Next quantifier course Z s) : ∃ t, S.Leads course s t := by
  cases quantifier with
  | some =>
    obtain ⟨t, hleads, _⟩ := h
    exact ⟨t, hleads⟩
  | all => exact h.1

/-- Every step leads to a set if there is a step, and no step leads out of the set. -/
theorem next_all_iff :
    S.Next .all course Z s ↔ S.Next .some course Set.univ s ∧ ¬S.Next .some course Zᶜ s := by
  simp [Next]

end Kripke

namespace Checker

variable {C : Type}

/-- The worker of a partition that goes one step back from its part of a map. -/
def nextWorker (c : Checker C) (quantifier : PathQuantifier) (course : Course) (phi : Nat → StateMap C)
    (p : Partition) : Worker C (StateMap C) := do
  let ctx ← Context.make c.algebra c.model p
  match quantifier with
  | .some => Next.someStep ctx course (phi p.id)
  | .all => Next.everyStep ctx course (phi p.id)

section

variable (c : Checker C) {R : Reading c.algebra} {S : Nat → Kripke} (hserves : c.model.Serves R S)
  (hcodes : c.algebra.Codes R.InDomain ∨ c.algebra.Garbles R.InDomain) (hcount : 0 < c.config.partitions)
  {partitions : List Partition}
  (hall : Partition.all c.config.strategy c.config.partitions c.model.stateCount = .ok partitions)

include hserves hcodes hcount hall

/-- One step is computed as it is meant, whatever the map and the division of the states. -/
theorem next_determines {phi : Nat → StateMap C} (hphi : ∀ p ∈ partitions, p.Part R (phi p.id))
    (quantifier : PathQuantifier) (course : Course) :
    ∃ maps, c.Determines R partitions (c.nextWorker quantifier course phi)
      (fun color => (S color).Next quantifier course (StateMap.joint R c.config.partitions phi color))
      maps := by
  obtain ⟨T, howner, hmake, hshows⟩ := c.exists_team hserves hcount hall
  have hends : T.Ends (fun i => c.nextWorker quantifier course phi
      (Partition.nth c.config.strategy c.config.partitions c.model.stateCount i)) (T.Lists fun color =>
        {s | (S color).Next quantifier course (StateMap.joint R c.config.partitions phi color) s}) := by
    simp only [nextWorker, hmake]
    cases quantifier with
    | some => exact (T.someStep_spec course (hshows hphi)).tell
    | all => exact T.everyStep_spec course (hshows hphi)
  refine c.determines_of_ends howner hcodes hcount hall hends (fun color s => Iff.rfl) ?_
  intro color s hnext
  obtain ⟨t, hleads⟩ := Kripke.Next.exists_leads hnext
  exact hserves.mem_palette_of_leads hleads

/-- "Every step" can be replaced by "some step". -/
theorem next_all_interchangeable (hfaithful : R.Faithful) (course : Course) (f : Formula) :
    c.Interchangeable R partitions (.next .all course f)
      (.and (.next .some course .top) (.not (.next .some course (.not f)))) := by
  refine c.interchangeable_of_holds_iff hserves hcodes hcount hall hfaithful (fun _ => rfl) ?_
  intro color env s _
  exact Kripke.next_all_iff

end

section Domains

variable {domain : Domain} {b : ExplicitModel.Builder domain.Value} {M : ExplicitModel domain.Value}
  {config : Config} {partitions : List Partition} {phi : Nat → StateMap domain.Value}

/-- Each worker ends with the states that it owns from which some step leads into the map, or from which
there is a step and every step leads into the map, with the colors for which this is so. A check of "every
step" gives what a check by "some step" gives. -/
theorem next_determines_step (hbuild : b.build = .ok M)
    (hbounds : ∀ e ∈ M.edges, domain.reading.InDomain e.bound) (hcount : 0 < config.partitions)
    (hall : Partition.all config.strategy config.partitions M.stateCount = .ok partitions)
    (hphi : ∀ p ∈ partitions, p.Part domain.reading (phi p.id)) (course : Course) :
    (∀ quantifier, ∃ maps, (domain.checker M config).Determines domain.reading partitions
      ((domain.checker M config).nextWorker quantifier course phi)
      (fun color => (M.system fun bound => color ∈ domain.reading.colors bound).Next quantifier course
        (StateMap.joint domain.reading config.partitions phi color)) maps) ∧
    ∀ f, (domain.checker M config).Interchangeable domain.reading partitions (.next .all course f)
      (.and (.next .some course .top) (.not (.next .some course (.not f)))) := by
  have hserves := (ExplicitModel.proper_of_build hbuild).serves (R := domain.reading) hbounds
  refine ⟨fun quantifier => ?_, fun f => ?_⟩
  · exact next_determines (domain.checker M config) hserves domain.codes_or_garbles hcount hall hphi
      quantifier course
  · exact next_all_interchangeable (domain.checker M config) hserves domain.codes_or_garbles hcount hall
      domain.faithful course f

/-- Parts of a map for two workers with a state each, which has no color at the first state. -/
theorem part_none_at_first : ∀ p ∈ [(⟨.hash, 0, 2, 2⟩ : Partition), ⟨.hash, 1, 2, 2⟩],
    p.Part (Reading.explicit 3) (.single p.id (if p.id = 0 then .empty 3 else .full 3) 2) := by
  simp only [List.forall_mem_cons, List.not_mem_nil, false_imp_iff, implies_true, and_true]
  exact ⟨.single (by decide) rfl (ColorSet.inDomain_empty 3),
    .single (by decide) rfl (ColorSet.inDomain_full 3)⟩

/-- Two states with a step there for all colors and a step back for one of them, each with a worker of its
own: the step to the second state leads into the map, and the step back leads out of it. -/
theorem next_determines_step_return : ∃ (M : ExplicitModel ColorSet) (partitions : List Partition),
    ExplicitModel.Builder.build ⟨2,
        #[⟨0, 1, .move "x" .up, .full 3⟩, ⟨1, 0, .move "x" .down, .full 1⟩], [], none⟩ = .ok M ∧
      (∀ e ∈ M.edges, e.bound.InDomain 3) ∧
      Partition.all .hash 2 M.stateCount = .ok partitions ∧
      (∀ p ∈ partitions, p.Part (Reading.explicit 3)
        (.single p.id (if p.id = 0 then .empty 3 else .full 3) 2)) ∧
      (∀ quantifier, ∃ maps, Determines ⟨.explicit 3, M.toModel (.explicit 3),
          { partitions := 2, strategy := .hash, transport := .serialized }⟩ (Reading.explicit 3) partitions
        (nextWorker ⟨.explicit 3, M.toModel (.explicit 3),
            { partitions := 2, strategy := .hash, transport := .serialized }⟩ quantifier {}
          fun i => .single i (if i = 0 then .empty 3 else .full 3) 2)
        (fun color => (M.system fun bound => color ∈ (Reading.explicit 3).colors bound).Next quantifier {}
          (StateMap.joint (Reading.explicit 3) 2
            (fun i => .single i (if i = 0 then .empty 3 else .full 3) 2) color)) maps) ∧
      ∀ f, Interchangeable ⟨.explicit 3, M.toModel (.explicit 3),
          { partitions := 2, strategy := .hash, transport := .serialized }⟩ (Reading.explicit 3) partitions
        (.next .all {} f) (.and (.next .some {} .top) (.not (.next .some {} (.not f)))) := by
  exact ⟨_, _, rfl, inDomain_there_and_back, rfl, part_none_at_first,
    @next_determines_step (.explicit 3) ⟨2,
      #[⟨0, 1, .move "x" .up, .full 3⟩, ⟨1, 0, .move "x" .down, .full 1⟩], [], none⟩ _
      { partitions := 2, strategy := .hash, transport := .serialized } _
      (fun i => .single i (if i = 0 then .empty 3 else .full 3) 2) rfl inDomain_there_and_back (by decide) rfl
      part_none_at_first {}⟩

end Domains

end Checker

end ColoredCtl

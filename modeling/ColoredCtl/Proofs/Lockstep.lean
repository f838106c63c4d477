import ColoredCtl.Proofs.Check.Transport
import ColoredCtl.Proofs.Color.Truth
import ColoredCtl.Proofs.Soundness

namespace ColoredCtl

open Color

/-- The checker of a model over a domain. -/
abbrev Color.Domain.checker (domain : Domain) (M : ExplicitModel domain.Value) (config : Config) :
    Checker domain.Value :=
  ⟨domain.algebra, M.toModel domain.algebra, config⟩

/-- A map of the states of a model, with values of the domain at states of one owner only. -/
structure StateMap.OwnedBy {C : Type} {A : Algebra C} (R : Reading A) (n : Nat) (owner : Nat → Nat)
    (i : Nat) (m : StateMap C) : Prop where
  stateCount_eq : m.stateCount = n
  owner_eq : ∀ {s}, m.contains s = true → s < n ∧ owner s = i
  get?_spec : ∀ s, ∃ value, m.get? A s = .ok value ∧ R.Accepts value

namespace Checker

variable {C : Type}

/-- The results of the workers that check a formula, with their journals. -/
structure Journals (c : Checker C) (f : Formula) (partitions : List Partition)
    (results : Fin c.config.partitions → StateMap C × Journal C) : Prop where
  /-- The workers that keep journals are the workers of the check, and enter all that they receive. -/
  mirrors : ∀ p, (fun r => ([r.1], r.2.received)) <$> c.recorder f p = (c.worker [f] p).traced []
  run_unframed : Crew.run c.unframed.medium (partitions.map (c.recorder f)) =
    List.ofFn fun i => .ok (results i)
  /-- All operators that the formula is computed by are entered. -/
  tells : ∀ i, (results i).2.Tells c.model.stateCount f []

/-- The workers of a division of the states stay together when they check a formula. -/
structure InLockstep (c : Checker C) (f : Formula) (partitions : List Partition)
    (results : Fin c.config.partitions → StateMap C × Journal C) : Prop extends
    c.Journals f partitions results where
  rounds_eq : ∀ i j, (results i).2.rounds.map (·.1) = (results j).2.rounds.map (·.1)
  /-- The operators have the same numbers of rounds for all workers, and the same substitutions. -/
  visits_eq : ∀ i j, (results i).2.visits.map (·.1) = (results j).2.visits.map (·.1)
  /-- After any number of rounds all wait for the next one, or all are done; and they are where they would
  be without frames. Otherwise frames are used, and one of them could not be written or read. -/
  together : ∀ rounds crew, crew = Crew.after c.medium rounds (partitions.map (c.worker [f])) →
    crew = Crew.after c.unframed.medium rounds (partitions.map (c.worker [f])) ∧
        ((∀ w ∈ crew, w.out?.isSome = true) ∨ ∀ w ∈ crew, ∃ maps, w = .done maps) ∨
      c.Frames ∧ ∃ w ∈ crew, ∃ cause, w = .fail (.error (.channel cause)) ∧ cause.OfWire
  /-- The run of the check ends after a number of rounds. -/
  run_eq_after : ∃ rounds, Crew.run c.medium (partitions.map (c.worker [f])) =
    (Crew.after c.medium rounds (partitions.map (c.worker [f]))).map Worker.outcome

/-- The workers of a division of the states keep to the states that they own when they check a formula. -/
structure KeepsToOwners (c : Checker C) (R : Reading c.algebra) (f : Formula)
    (partitions : List Partition) (results : Fin c.config.partitions → StateMap C × Journal C) :
    Prop extends c.Journals f partitions results where
  /-- The maps of all operators of a worker are about the states that it owns. -/
  maps_owned : ∀ (i : Fin c.config.partitions) visit m, (visit, m) ∈ (results i).2.visits →
    m.OwnedBy R c.model.stateCount (c.config.owner c.model.stateCount) i
  /-- What is pushed to a worker is for states that it owns. -/
  pushed_owned : ∀ (i : Fin c.config.partitions) incoming s a,
    (Purpose.push, incoming) ∈ (results i).2.rounds → (s, a) ∈ incoming.getD [] →
      s < c.model.stateCount ∧ c.config.owner c.model.stateCount s = i
  /-- No worker fails but for a frame that cannot be written or read. -/
  outcomes : ∃ outcome : Fin c.config.partitions → Attempt (List (StateMap C)),
    Crew.run c.medium (partitions.map (c.worker [f])) = List.ofFn outcome ∧
      ∀ i, outcome i = .ok [(results i).1] ∨ c.Frames ∧
        ∃ cause, outcome i = .error (.error (.channel cause)) ∧ (cause = .aborted ∨ cause.OfWire)

namespace Runs

variable {c : Checker C} {R : Reading c.algebra} {S : Nat → Kripke} {f : Formula}
  {T : Team R c.model S c.config.partitions} {results : Fin c.config.partitions → StateMap C × Journal C}
  {partitions : List Partition}

theorem journals (h : c.Runs f T results)
    (hall : Partition.all c.config.strategy c.config.partitions c.model.stateCount = .ok partitions) :
    c.Journals f partitions results :=
  ⟨recorder_mirrors c f, h.run_unframed hall, h.tells⟩

/-- The workers are together after any number of rounds, unless a frame could not be written or read. -/
theorem together (h : c.Runs f T results) (hcount : 0 < c.config.partitions)
    (hall : Partition.all c.config.strategy c.config.partitions c.model.stateCount = .ok partitions)
    (rounds : Nat) {crew : List (Worker C (List (StateMap C)))}
    (hcrew : crew = Crew.after c.medium rounds (partitions.map (c.worker [f]))) :
    crew = Crew.after c.unframed.medium rounds (partitions.map (c.worker [f])) ∧
        ((∀ w ∈ crew, w.out?.isSome = true) ∨ ∀ w ∈ crew, ∃ maps, w = .done maps) ∨
      c.Frames ∧ ∃ w ∈ crew, ∃ cause, w = .fail (.error (.channel cause)) ∧ cause.OfWire := by
  subst hcrew
  rw [Partition.map_eq_ofFn hall]
  obtain ⟨w, htogether, hunframed, hframed⟩ := h.workers.after_spec rounds
  rw [hunframed _ h.held]
  by_cases hframes : c.Frames
  · obtain hsame | ⟨broken, hbroken, hfailed⟩ := hframed _ h.attempted
    · left
      exact ⟨hsame, hsame ▸ htogether.forall_mem⟩
    · right
      obtain ⟨i, cause, hcause, hwire⟩ := hfailed.blame
      exact ⟨hframes, broken i, hbroken ▸ List.mem_ofFn.2 ⟨i, rfl⟩, cause, hcause, hwire⟩
  · left
    rw [medium_unframed hcount hframes, hunframed _ h.held]
    exact ⟨rfl, htogether.forall_mem⟩

/-- The maps of the operators of a worker are about the states that it owns. -/
theorem ownedBy (h : c.Runs f T results) {i : Fin c.config.partitions} {visit : Visit C} {m : StateMap C}
    (hmem : (visit, m) ∈ (results i).2.visits) :
    m.OwnedBy R c.model.stateCount (c.config.owner c.model.stateCount) i := by
  have hshows := h.logs.shows hmem
  refine ⟨hshows.fits.stateCount_eq, ?_, ?_⟩
  · intro s hs
    have howns := T.owns_iff.1 (hshows.within hs)
    rwa [h.owner_eq] at howns
  · intro s
    obtain ⟨value, hvalue, haccepts, _⟩ := hshows.get?_spec s
    exact ⟨value, hvalue, haccepts⟩

end Runs

variable {domain : Domain} {b : ExplicitModel.Builder domain.Value} {M : ExplicitModel domain.Value}
  {f : Formula} {config : Config} {partitions : List Partition}

/-- The workers of a check stay together, whatever the formula and the division of the states, if there is
room for tables of all states. -/
theorem workers_in_lockstep (hbuild : b.build = .ok M)
    (hbounds : ∀ e ∈ M.edges, domain.reading.InDomain e.bound) (htable : M.stateCount ≤ Capacity.tableLimit)
    (hvalid : f.validate (M.toModel domain.algebra) [] = .ok ()) (hcount : 0 < config.partitions)
    (hall : Partition.all config.strategy config.partitions M.stateCount = .ok partitions) :
    ∃ results, (domain.checker M config).InLockstep f partitions results := by
  have hserves := (ExplicitModel.proper_of_build hbuild).serves (R := domain.reading) hbounds
  obtain ⟨T, results, hruns⟩ :=
    exists_runs (domain.checker M config) hserves htable domain.codes_or_garbles hcount hall hvalid
  refine ⟨results, hruns.journals hall, hruns.logs.rounds_eq, hruns.logs.visits_eq, ?_, ?_⟩
  · intro rounds crew hcrew
    exact hruns.together hcount hall rounds hcrew
  · obtain ⟨rounds, hrun, _⟩ := hruns.workers.run_eq_after hruns.attempted
    exact ⟨rounds, Partition.map_eq_ofFn hall _ ▸ hrun⟩

/-- Two states with a step there for all colors and a step back for one of them, each with a worker of
its own, and a formula with a quantifier and a fixed point. -/
theorem workers_in_lockstep_return : ∃ (M : ExplicitModel ColorSet) (partitions : List Partition),
    ExplicitModel.Builder.build ⟨2,
        #[⟨0, 1, .move "x" .up, .full 3⟩, ⟨1, 0, .move "x" .down, .full 1⟩], [], none⟩ = .ok M ∧
      (∀ e ∈ M.edges, e.bound.InDomain 3) ∧ M.stateCount ≤ Capacity.tableLimit ∧
      Formula.validate (M.toModel (.explicit 3)) (.forAll "v" .top (.implies (.reference "v")
        (.hold .all false {} .top (.next .some {} (.reference "v"))))) [] = .ok () ∧
      Partition.all .hash 2 M.stateCount = .ok partitions ∧
      ∃ results, InLockstep ⟨.explicit 3, M.toModel (.explicit 3),
          { partitions := 2, strategy := .hash, transport := .serialized }⟩
        (.forAll "v" .top (.implies (.reference "v") (.hold .all false {} .top
          (.next .some {} (.reference "v"))))) partitions results := by
  exact ⟨_, _, rfl, inDomain_there_and_back, by decide, rfl, rfl, @workers_in_lockstep (.explicit 3) ⟨2,
    #[⟨0, 1, .move "x" .up, .full 3⟩, ⟨1, 0, .move "x" .down, .full 1⟩], [], none⟩ _ _ _ _ rfl
    inDomain_there_and_back (by decide) rfl (by decide) rfl⟩

/-- The workers of a check keep to the states that they own, whatever the formula and the division of the
states, if there is room for tables of all states. -/
theorem workers_keep_to_owners (hbuild : b.build = .ok M)
    (hbounds : ∀ e ∈ M.edges, domain.reading.InDomain e.bound) (htable : M.stateCount ≤ Capacity.tableLimit)
    (hvalid : f.validate (M.toModel domain.algebra) [] = .ok ()) (hcount : 0 < config.partitions)
    (hall : Partition.all config.strategy config.partitions M.stateCount = .ok partitions) :
    ∃ results, (domain.checker M config).KeepsToOwners domain.reading f partitions results := by
  have hserves := (ExplicitModel.proper_of_build hbuild).serves (R := domain.reading) hbounds
  obtain ⟨T, results, hruns⟩ :=
    exists_runs (domain.checker M config) hserves htable domain.codes_or_garbles hcount hall hvalid
  refine ⟨results, hruns.journals hall, ?_, ?_, ?_⟩
  · intro i visit m hmem
    exact hruns.ownedBy hmem
  · intro i incoming s a hround hentry
    have howns := T.owns_iff.1 (hruns.logs.home hround hentry)
    rwa [hruns.owner_eq] at howns
  · obtain hrun | ⟨hframes, broken, hrun, hbroken⟩ := hruns.run_spec hcount hall
    · exact ⟨_, hrun, fun i => .inl rfl⟩
    · exact ⟨_, hrun, fun i => (hbroken.outcome_spec i).imp_right fun hfailed => ⟨hframes, hfailed⟩⟩

/-- Two states with a step there for all colors and a step back for one of them, each with a worker of
its own: values are pushed between the workers. -/
theorem workers_keep_to_owners_return : ∃ (M : ExplicitModel ColorSet) (partitions : List Partition),
    ExplicitModel.Builder.build ⟨2,
        #[⟨0, 1, .move "x" .up, .full 3⟩, ⟨1, 0, .move "x" .down, .full 1⟩], [], none⟩ = .ok M ∧
      (∀ e ∈ M.edges, e.bound.InDomain 3) ∧ M.stateCount ≤ Capacity.tableLimit ∧
      Formula.validate (M.toModel (.explicit 3)) (.bind "v" (.hold .some false {} .top
        (.next .some {} (.reference "v")))) [] = .ok () ∧
      Partition.all (.block 1) 2 M.stateCount = .ok partitions ∧
      ∃ results, KeepsToOwners ⟨.explicit 3, M.toModel (.explicit 3),
          { partitions := 2, strategy := .block 1 }⟩ (Reading.explicit 3)
        (.bind "v" (.hold .some false {} .top (.next .some {} (.reference "v")))) partitions
        results := by
  exact ⟨_, _, rfl, inDomain_there_and_back, by decide, rfl, rfl, @workers_keep_to_owners (.explicit 3) ⟨2,
    #[⟨0, 1, .move "x" .up, .full 3⟩, ⟨1, 0, .move "x" .down, .full 1⟩], [], none⟩ _ _ _ _ rfl
    inDomain_there_and_back (by decide) rfl (by decide) rfl⟩

end Checker

end ColoredCtl

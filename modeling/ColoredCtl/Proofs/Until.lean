import ColoredCtl.Proofs.Lockstep
import ColoredCtl.Proofs.Paths

namespace ColoredCtl

open Color

variable {C : Type} {A : Algebra C}

/-- A map that is the part of a partition: it has values of the domain, at states that the partition owns. -/
structure Partition.Part (p : Partition) (R : Reading A) (m : StateMap C) : Prop where
  fits : m.Fits R p.stateCount
  owner_eq : ∀ {s}, m.contains s = true → p.owner s = p.id

theorem Partition.Part.empty (p : Partition) (R : Reading A) : p.Part R (.empty p.stateCount) :=
  ⟨rfl, by simp [StateMap.contains]⟩

theorem Partition.Part.single {p : Partition} {R : Reading A} {s : Nat} {value : C} (hs : s < p.stateCount)
    (howner : p.owner s = p.id) (hvalue : R.InDomain value) : p.Part R (.single s value p.stateCount) := by
  refine ⟨⟨rfl, hs, hvalue⟩, ?_⟩
  intro t ht
  obtain rfl : t = s := by simpa [StateMap.contains] using ht
  exact howner

/-- The states where the parts of a map, put together, have a color. -/
def StateMap.joint (R : Reading A) (count : Nat) (parts : Nat → StateMap C) (c : Nat) : Set Nat :=
  {s | ∃ i < count, c ∈ (parts i).colorsAt R s}

/-- The parts of the workers of a team show what the parts have together. -/
theorem Team.shows_joint {R : Reading A} {M : Model C} {S : Nat → Kripke} {K : Nat} (T : Team R M S K)
    {parts : Nat → StateMap C}
    (hparts : ∀ i : Fin K, (Partition.nth T.strategy K M.stateCount i).Part R (parts i)) :
    T.Shows (StateMap.joint R K parts) fun i => parts i := by
  have howns {i : Fin K} {s : Nat} (hs : (parts i).contains s = true) : (T.ctx i).Owns s :=
    ⟨(hparts i).fits.lt_of_contains hs, (hparts i).owner_eq hs⟩
  intro i
  refine ⟨(hparts i).fits, howns, ?_⟩
  intro s c
  constructor
  · intro hc
    exact ⟨howns ((hparts i).fits.contains_of_mem hc), (hparts i).fits.colorsAt_subset s hc, i, i.isLt, hc⟩
  · rintro ⟨hi, _, j, hj, hc⟩
    -- Both workers own the state, so they are the same.
    have hsame : T.owner s = j := (howns (i := ⟨j, hj⟩) ((hparts ⟨j, hj⟩).fits.contains_of_mem hc)).2
    obtain rfl : j = i := hsame.symm.trans hi.2
    exact hc

/-- Parts with values of the domain have only colors of the palette. -/
theorem Team.mem_palette_of_joint {R : Reading A} {M : Model C} {S : Nat → Kripke} {K : Nat}
    {T : Team R M S K} {P : Nat → Set Nat} {parts : Nat → StateMap C} (h : T.Shows P fun i => parts i)
    {s c : Nat} (hs : s ∈ StateMap.joint R K parts c) : c ∈ R.palette := by
  obtain ⟨i, hi, hc⟩ := hs
  exact (h ⟨i, hi⟩).fits.colorsAt_subset s hc

namespace Checker

/-- The worker of a partition that computes until from its parts of two maps. -/
def untilWorker (c : Checker C) (quantifier : PathQuantifier) (weak : Bool) (course : Course)
    (path reach : Nat → StateMap C) (p : Partition) : Worker C (StateMap C) := do
  let ctx ← Context.make c.algebra c.model p
  match quantifier with
  | .some => Until.somePath ctx weak course (path p.id) (reach p.id)
  | .all => Until.everyPath ctx weak course (path p.id) (reach p.id)

/-- The workers come to their maps, and these have, at the states that each worker owns, the colors for
which something holds there. No value is empty. -/
structure Determines (c : Checker C) (R : Reading c.algebra) (partitions : List Partition)
    (worker : Partition → Worker C (StateMap C)) (Holds : (color state : Nat) → Prop)
    (maps : Fin c.config.partitions → StateMap C) : Prop where
  run_unframed : Crew.run c.unframed.medium (partitions.map worker) = List.ofFn fun i => .ok (maps i)
  run_of_fit : (c.Frames → c.FramesFit R partitions) →
    Crew.run c.medium (partitions.map worker) = List.ofFn fun i => .ok (maps i)
  /-- No worker fails but for a frame that cannot be written or read. -/
  run_cases : Crew.run c.medium (partitions.map worker) = List.ofFn (fun i => .ok (maps i)) ∨
    c.Frames ∧ ∃ outcome : Fin c.config.partitions → Attempt (StateMap C),
      Crew.run c.medium (partitions.map worker) = List.ofFn outcome ∧
      (∀ i, outcome i = .ok (maps i) ∨ ∃ cause, outcome i = .error (.error (.channel cause)) ∧
        (cause = .aborted ∨ cause.OfWire)) ∧
      ∃ i cause, outcome i = .error (.error (.channel cause)) ∧ cause.OfWire
  shows : ∀ i : Fin c.config.partitions, (maps i).Shows R c.model.stateCount
    (fun s => ∃ color, (s < c.model.stateCount ∧ c.config.owner c.model.stateCount s = i) ∧ Holds color s)
    fun s color => (s < c.model.stateCount ∧ c.config.owner c.model.stateCount s = i) ∧ Holds color s

section Until

variable (c : Checker C) {R : Reading c.algebra} {S : Nat → Kripke} {partitions : List Partition}
  {path reach : Nat → StateMap C}

/-- The workers of a division of the states are a team, and their parts of a map show all of it. -/
theorem exists_team (hserves : c.model.Serves R S) (hcount : 0 < c.config.partitions)
    (hall : Partition.all c.config.strategy c.config.partitions c.model.stateCount = .ok partitions) :
    ∃ T : Team R c.model S c.config.partitions, T.owner = c.config.owner c.model.stateCount ∧
      (∀ i : Fin c.config.partitions, Context.make c.algebra c.model
        (Partition.nth c.config.strategy c.config.partitions c.model.stateCount i) = .ok (T.ctx i)) ∧
      ∀ {parts : Nat → StateMap C}, (∀ p ∈ partitions, p.Part R (parts p.id)) →
        T.Shows (StateMap.joint R c.config.partitions parts) fun i => parts i := by
  obtain ⟨T, hstrategy, hmake⟩ := Team.exists_of_all hserves hcount hall
  have hmem (i : Fin c.config.partitions) :
      Partition.nth T.strategy c.config.partitions c.model.stateCount i ∈ partitions := by
    rw [(Partition.all_eq_ok hall).1, hstrategy]
    exact List.mem_map.2 ⟨i, List.mem_range.2 i.isLt, rfl⟩
  refine ⟨T, by funext s; rw [Team.owner, hstrategy], hmake, fun hparts => ?_⟩
  exact T.shows_joint fun i => hparts _ (hmem i)

theorem exists_team_of_parts (hserves : c.model.Serves R S) (hcount : 0 < c.config.partitions)
    (hall : Partition.all c.config.strategy c.config.partitions c.model.stateCount = .ok partitions)
    (hpath : ∀ p ∈ partitions, p.Part R (path p.id)) (hreach : ∀ p ∈ partitions, p.Part R (reach p.id)) :
    ∃ T : Team R c.model S c.config.partitions, T.owner = c.config.owner c.model.stateCount ∧
      (∀ i : Fin c.config.partitions, Context.make c.algebra c.model
        (Partition.nth c.config.strategy c.config.partitions c.model.stateCount i) = .ok (T.ctx i)) ∧
      T.Shows (StateMap.joint R c.config.partitions path) (fun i => path i) ∧
      T.Shows (StateMap.joint R c.config.partitions reach) fun i => reach i := by
  obtain ⟨T, howner, hmake, hshows⟩ := c.exists_team hserves hcount hall
  exact ⟨T, howner, hmake, hshows hpath, hshows hreach⟩

/-- The workers of a team that come to maps without empty values determine what these show. -/
theorem determines_of_ends {T : Team R c.model S c.config.partitions}
    (howner : T.owner = c.config.owner c.model.stateCount)
    (hcodes : c.algebra.Codes R.InDomain ∨ c.algebra.Garbles R.InDomain) (hcount : 0 < c.config.partitions)
    (hall : Partition.all c.config.strategy c.config.partitions c.model.stateCount = .ok partitions)
    {worker : Partition → Worker C (StateMap C)} {P : Nat → Set Nat}
    (hends : T.Ends (fun i => worker
      (Partition.nth c.config.strategy c.config.partitions c.model.stateCount i)) (T.Lists P))
    {Holds : (color state : Nat) → Prop} (hholds : ∀ color s, s ∈ P color ↔ Holds color s)
    (hpalette : ∀ color s, s ∈ P color → color ∈ R.palette) :
    ∃ maps, c.Determines R partitions worker Holds maps := by
  obtain ⟨maps, hyields, hlists⟩ := hends
  have hfinishes := finishes_of_yields howner hcodes hcount hall hyields
  refine ⟨maps, hfinishes.run_unframed, hfinishes.run_of_fit, hfinishes.run_cases, fun i => ?_⟩
  have hiff (s color : Nat) : ((T.ctx i).Owns s ∧ color ∈ R.palette ∧ s ∈ P color) ↔
      (s < c.model.stateCount ∧ c.config.owner c.model.stateCount s = i) ∧ Holds color s := by
    rw [← hholds, T.owns_iff, howner]
    exact and_congr_right fun _ => and_iff_right_of_imp (hpalette color s)
  exact (hlists i).congr (fun s ⟨color, h⟩ => ⟨color, (hiff s color).1 h⟩) hiff

/-- The workers of a team come to the least sets that the expansion law of until allows. -/
theorem untilWorker_yields {T : Team R c.model S c.config.partitions} (quantifier : PathQuantifier)
    (weak : Bool) (course : Course)
    (hmake : ∀ i : Fin c.config.partitions, Context.make c.algebra c.model
      (Partition.nth c.config.strategy c.config.partitions c.model.stateCount i) = .ok (T.ctx i))
    (hpath : T.Shows (StateMap.joint R c.config.partitions path) fun i => path i)
    (hreach : T.Shows (StateMap.joint R c.config.partitions reach) fun i => reach i) :
    T.Ends (fun i => c.untilWorker quantifier weak course path reach
        (Partition.nth c.config.strategy c.config.partitions c.model.stateCount i))
      (T.Lists fun color => (S color).hold quantifier weak course
        (StateMap.joint R c.config.partitions path color)
        (StateMap.joint R c.config.partitions reach color)) := by
  simp only [untilWorker, hmake]
  cases quantifier with
  | some => exact (T.somePath_spec hpath hreach).tell
  | all => exact T.everyPath_spec hpath hreach

/-- Until is computed as it is meant, whatever the maps and the division of the states. -/
theorem until_determines (hserves : c.model.Serves R S)
    (hcodes : c.algebra.Codes R.InDomain ∨ c.algebra.Garbles R.InDomain) (hcount : 0 < c.config.partitions)
    (hall : Partition.all c.config.strategy c.config.partitions c.model.stateCount = .ok partitions)
    (hpath : ∀ p ∈ partitions, p.Part R (path p.id)) (hreach : ∀ p ∈ partitions, p.Part R (reach p.id))
    (quantifier : PathQuantifier) (weak : Bool) (course : Course) :
    ∃ maps, c.Determines R partitions (c.untilWorker quantifier weak course path reach)
      (fun color => (S color).Paths quantifier weak course
        (StateMap.joint R c.config.partitions path color)
        (StateMap.joint R c.config.partitions reach color)) maps := by
  obtain ⟨T, howner, hmake, hpath, hreach⟩ := c.exists_team_of_parts hserves hcount hall hpath hreach
  refine c.determines_of_ends howner hcodes hcount hall
    (c.untilWorker_yields quantifier weak course hmake hpath hreach) ?_ ?_
  · intro color s
    exact Kripke.mem_hold_iff_paths
  · intro color s hhold
    exact (Kripke.mem_or_mem_of_hold hhold).elim (T.mem_palette_of_joint hpath)
      (T.mem_palette_of_joint hreach)

end Until

section Domains

variable {domain : Domain} {b : ExplicitModel.Builder domain.Value} {M : ExplicitModel domain.Value}
  {config : Config} {partitions : List Partition} {path reach : Nat → StateMap domain.Value}

/-- Parts of a map for two workers with a state each, which has all colors at both states. -/
theorem part_each_of_two : ∀ p ∈ [(⟨.hash, 0, 2, 2⟩ : Partition), ⟨.hash, 1, 2, 2⟩],
    p.Part (Reading.explicit 3) (.single p.id (.full 3) 2) := by
  simp only [List.forall_mem_cons, List.not_mem_nil, false_imp_iff, implies_true, and_true]
  exact ⟨.single (by decide) rfl (ColorSet.inDomain_full 3),
    .single (by decide) rfl (ColorSet.inDomain_full 3)⟩

/-- Parts of a map for two workers with a state each, which has all colors at the second state. -/
theorem part_second_of_two : ∀ p ∈ [(⟨.hash, 0, 2, 2⟩ : Partition), ⟨.hash, 1, 2, 2⟩],
    p.Part (Reading.explicit 3) (if p.id = 0 then .empty 2 else .single 1 (.full 3) 2) := by
  simp only [List.forall_mem_cons, List.not_mem_nil, false_imp_iff, implies_true, and_true]
  exact ⟨.empty _ _, .single (by decide) rfl (ColorSet.inDomain_full 3)⟩

/-- Each worker ends with the states that it owns from which some path stays in the one map until it
reaches the other, or, in the weak form, until no step leads on; with the colors for which there is such a
path. -/
theorem until_determines_somePath (hbuild : b.build = .ok M)
    (hbounds : ∀ e ∈ M.edges, domain.reading.InDomain e.bound) (hcount : 0 < config.partitions)
    (hall : Partition.all config.strategy config.partitions M.stateCount = .ok partitions)
    (hpath : ∀ p ∈ partitions, p.Part domain.reading (path p.id))
    (hreach : ∀ p ∈ partitions, p.Part domain.reading (reach p.id)) (weak : Bool) (course : Course) :
    ∃ maps, (domain.checker M config).Determines domain.reading partitions
      ((domain.checker M config).untilWorker .some weak course path reach)
      (fun color => (M.system fun bound => color ∈ domain.reading.colors bound).SomePath weak course
        (StateMap.joint domain.reading config.partitions path color)
        (StateMap.joint domain.reading config.partitions reach color)) maps := by
  have hserves := (ExplicitModel.proper_of_build hbuild).serves (R := domain.reading) hbounds
  exact until_determines (domain.checker M config) hserves domain.codes_or_garbles hcount hall hpath
    hreach .some weak course

/-- Two states with a step there for all colors and a step back for one of them, each with a worker of its
own: the way to the second state begins with another worker. -/
theorem until_determines_somePath_return : ∃ (M : ExplicitModel ColorSet) (partitions : List Partition),
    ExplicitModel.Builder.build ⟨2,
        #[⟨0, 1, .move "x" .up, .full 3⟩, ⟨1, 0, .move "x" .down, .full 1⟩], [], none⟩ = .ok M ∧
      (∀ e ∈ M.edges, e.bound.InDomain 3) ∧
      Partition.all .hash 2 M.stateCount = .ok partitions ∧
      (∀ p ∈ partitions, p.Part (Reading.explicit 3) (.single p.id (.full 3) 2)) ∧
      (∀ p ∈ partitions, p.Part (Reading.explicit 3)
        (if p.id = 0 then .empty 2 else .single 1 (.full 3) 2)) ∧
      ∃ maps, Determines ⟨.explicit 3, M.toModel (.explicit 3),
          { partitions := 2, strategy := .hash, transport := .serialized }⟩ (Reading.explicit 3) partitions
        (untilWorker ⟨.explicit 3, M.toModel (.explicit 3),
            { partitions := 2, strategy := .hash, transport := .serialized }⟩ .some false {}
          (fun i => .single i (.full 3) 2) fun i => if i = 0 then .empty 2 else .single 1 (.full 3) 2)
        (fun color => (M.system fun bound => color ∈ (Reading.explicit 3).colors bound).SomePath false {}
          (StateMap.joint (Reading.explicit 3) 2 (fun i => .single i (.full 3) 2) color)
          (StateMap.joint (Reading.explicit 3) 2
            (fun i => if i = 0 then .empty 2 else .single 1 (.full 3) 2) color)) maps := by
  exact ⟨_, _, rfl, inDomain_there_and_back, rfl, part_each_of_two, part_second_of_two,
    @until_determines_somePath (.explicit 3) ⟨2,
      #[⟨0, 1, .move "x" .up, .full 3⟩, ⟨1, 0, .move "x" .down, .full 1⟩], [], none⟩ _ _ _ _ _ rfl
      inDomain_there_and_back (by decide) rfl part_each_of_two part_second_of_two false {}⟩

/-- Each worker ends with the states that it owns from which every maximal path stays in the one map until
it reaches the other, or, in the weak form, to its end; with the colors for which this is so. -/
theorem until_determines_everyPath (hbuild : b.build = .ok M)
    (hbounds : ∀ e ∈ M.edges, domain.reading.InDomain e.bound) (hcount : 0 < config.partitions)
    (hall : Partition.all config.strategy config.partitions M.stateCount = .ok partitions)
    (hpath : ∀ p ∈ partitions, p.Part domain.reading (path p.id))
    (hreach : ∀ p ∈ partitions, p.Part domain.reading (reach p.id)) (weak : Bool) (course : Course) :
    ∃ maps, (domain.checker M config).Determines domain.reading partitions
      ((domain.checker M config).untilWorker .all weak course path reach)
      (fun color => (M.system fun bound => color ∈ domain.reading.colors bound).EveryPath weak course
        (StateMap.joint domain.reading config.partitions path color)
        (StateMap.joint domain.reading config.partitions reach color)) maps := by
  have hserves := (ExplicitModel.proper_of_build hbuild).serves (R := domain.reading) hbounds
  exact until_determines (domain.checker M config) hserves domain.codes_or_garbles hcount hall hpath
    hreach .all weak course

/-- Two states with a step there for all colors and a step back for one of them, each with a worker of its
own, and time that runs backward: paths end at the first state, but for one color. -/
theorem until_determines_everyPath_return : ∃ (M : ExplicitModel ColorSet) (partitions : List Partition),
    ExplicitModel.Builder.build ⟨2,
        #[⟨0, 1, .move "x" .up, .full 3⟩, ⟨1, 0, .move "x" .down, .full 1⟩], [], none⟩ = .ok M ∧
      (∀ e ∈ M.edges, e.bound.InDomain 3) ∧
      Partition.all .hash 2 M.stateCount = .ok partitions ∧
      (∀ p ∈ partitions, p.Part (Reading.explicit 3) (.single p.id (.full 3) 2)) ∧
      (∀ p ∈ partitions, p.Part (Reading.explicit 3)
        (if p.id = 0 then .empty 2 else .single 1 (.full 3) 2)) ∧
      ∃ maps, Determines ⟨.explicit 3, M.toModel (.explicit 3), { partitions := 2, strategy := .hash }⟩
        (Reading.explicit 3) partitions
        (untilWorker ⟨.explicit 3, M.toModel (.explicit 3), { partitions := 2, strategy := .hash }⟩ .all true
          { forward := false } (fun i => .single i (.full 3) 2)
          fun i => if i = 0 then .empty 2 else .single 1 (.full 3) 2)
        (fun color => (M.system fun bound => color ∈ (Reading.explicit 3).colors bound).EveryPath true
          { forward := false } (StateMap.joint (Reading.explicit 3) 2 (fun i => .single i (.full 3) 2) color)
          (StateMap.joint (Reading.explicit 3) 2
            (fun i => if i = 0 then .empty 2 else .single 1 (.full 3) 2) color)) maps := by
  exact ⟨_, _, rfl, inDomain_there_and_back, rfl, part_each_of_two, part_second_of_two,
    @until_determines_everyPath (.explicit 3) ⟨2,
      #[⟨0, 1, .move "x" .up, .full 3⟩, ⟨1, 0, .move "x" .down, .full 1⟩], [], none⟩ _ _ _ _ _ rfl
      inDomain_there_and_back (by decide) rfl part_each_of_two part_second_of_two true
      { forward := false }⟩

end Domains

end Checker

end ColoredCtl

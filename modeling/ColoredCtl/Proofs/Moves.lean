import ColoredCtl.Proofs.Check.Refusal
import ColoredCtl.Proofs.Interchange

namespace ColoredCtl

open Color

/-- The direction of time in which moves at a state lead away from it. -/
def Flow.forward : Flow → Bool
  | .out => true
  | .into => false

/-- The steps along a dimension, in one orientation, that lead away from a state. -/
def Flow.course (flow : Flow) (name : String) (facet : Facet) : Course :=
  { direction := .along name (some facet), forward := flow.forward }

theorem Direction.accepts_along_iff {name : String} {facet : Facet} {label : Label} :
    (Direction.along name (some facet)).accepts label = true ↔ label = .move name facet := by
  cases label with
  | loop => simp [accepts]
  | move dimension orientation =>
    simp only [accepts, Bool.and_eq_true, beq_iff_eq, Option.all_some, Label.move.injEq, @eq_comm _ facet]

namespace ExplicitModel

variable {C : Type} {M : ExplicitModel C} {present : C → Prop} {name : String} {flow : Flow} {facet : Facet}

/-- Some step leads away from a state along a dimension if a move is there. -/
theorem next_course_iff {s : Nat} :
    (M.system present).Next .some (flow.course name facet) Set.univ s ↔
      (M.system present).Atom (.transition name flow facet) s := by
  simp only [Kripke.Next, Kripke.Leads, Flow.course, Direction.accepts_along_iff, Set.mem_univ, and_true]
  cases flow with
  | into =>
    constructor
    · rintro ⟨t, _, rfl, e, he, _, htarget, hlabel, hpresent⟩
      exact ⟨e, he, hlabel, htarget, hpresent⟩
    · rintro ⟨e, he, hlabel, htarget, hpresent⟩
      exact ⟨e.source, _, rfl, e, he, rfl, htarget, hlabel, hpresent⟩
  | out =>
    constructor
    · rintro ⟨t, _, rfl, e, he, hsource, _, hlabel, hpresent⟩
      exact ⟨e, he, hlabel, hsource, hpresent⟩
    · rintro ⟨e, he, hlabel, hsource, hpresent⟩
      exact ⟨e.target, _, rfl, e, he, hsource, rfl, hlabel, hpresent⟩

end ExplicitModel

/-- Workers that come to results and take part in no round are done. -/
theorem Crew.Yields.eq_done_of_silent {C α : Type} {K : Nat} {Round : Crew.Rounds C K}
    {w : Fin K → Worker C α} {r : Fin K → α} (h : Crew.Yields Round w r) (hsilent : ∀ i, (w i).Silent) :
    w = fun i => .done (r i) := by
  cases h with
  | done r => rfl
  | meet hround hrest =>
    funext i
    cases hsilent i

namespace Context

variable {C : Type}

/-- The worker finds an atom in the model. -/
theorem silent_check_atom (ctx : Context C) (a : Atom) : (ctx.check (.atom a)).Silent := by
  have heval : (ctx.eval (.atom a) []).run' {} = ctx.evalAtom a := by
    have hlift (memo : Memo C) : (liftM (ctx.evalAtom a) : Shared C (StateMap C)).run memo =
        ctx.evalAtom a >>= fun m => pure (m, memo) := rfl
    rw [eval, StateT.run'_eq, run_share_of_unknown (Memo.find?_empty _), hlift]
    simp
  rw [check, heval]
  exact (ctx.silent_evalAtom a).bind fun m => Worker.silent_compute _

end Context

namespace Checker

variable {C : Type}

theorem silent_worker_atom (c : Checker C) (a : Atom) (p : Partition) : (c.worker [.atom a] p).Silent := by
  refine (Worker.silent_compute _).bind fun ctx => ?_
  rw [List.mapM_cons, List.mapM_nil]
  exact (ctx.silent_check_atom a).bind fun m => rfl

section

variable (c : Checker C) {R : Reading c.algebra} {S : Nat → Kripke} (hserves : c.model.Serves R S)
  (htable : c.model.stateCount ≤ Capacity.tableLimit)
  (hcodes : c.algebra.Codes R.InDomain ∨ c.algebra.Garbles R.InDomain) (hcount : 0 < c.config.partitions)
  (hhub : c.config.partitions < 0x20000000) {partitions : List Partition}
  (hall : Partition.all c.config.strategy c.config.partitions c.model.stateCount = .ok partitions)
  {f g : Formula} {a : Atom}

include hserves htable hcodes hcount hhub hall

/-- The check of an atom gives a map, whatever connects the workers. -/
theorem verifyMerged_atom (hvalid : (Formula.atom a).validate c.model [] = .ok ()) :
    ∃ m, c.verifyMerged (.atom a) = .ok m := by
  obtain ⟨T, results, hruns⟩ := exists_runs c hserves htable hcodes hcount hall hvalid
  obtain ⟨m, hmerge, _⟩ := merge_answers htable hcount hall fun i => (hruns.tabulates i).shows
  have hdone := hruns.workers.eq_done_of_silent fun i => c.silent_worker_atom a _
  have hverify : c.verify (.atom a) = .ok (List.ofFn fun i => (results i).1) := by
    apply verify_of_results hcount hall hhub hvalid
    rw [Partition.map_eq_ofFn hall, hdone, Crew.run_done]
  exact ⟨m, verifyMerged_of_merge hverify hmerge⟩

end

/-- Formulas that give the same results give the same merged map, or a frame cannot be written or read. -/
theorem Interchangeable.verifyMerged_cases {c : Checker C} {R : Reading c.algebra}
    {partitions : List Partition} {f g : Formula} (h : c.Interchangeable R partitions f g)
    (htable : c.model.stateCount ≤ Capacity.tableLimit) {m : StateMap C} (hf : c.verifyMerged f = .ok m) :
    ((c.Frames → c.FramesFit R partitions) → c.verifyMerged g = .ok m) ∧
      (c.verifyMerged g = .ok m ∨ c.Frames ∧
        ∃ cause, c.verifyMerged g = .error (.error (.channel cause)) ∧ cause.OfWire) := by
  have hmerged (hverify : c.verify f = c.verify g) : c.verifyMerged g = .ok m := by
    rw [← hf, verifyMerged, verifyMerged, hverify]
  refine ⟨fun hfit => hmerged (h.verify_of_fit htable hfit), ?_⟩
  obtain hverify | ⟨hframes, cause, hwire, hfailed | hfailed⟩ := h.verify_cases htable
  · exact .inl (hmerged hverify)
  · cases hf.symm.trans (verifyMerged_of_failed hfailed)
  · exact .inr ⟨hframes, cause, verifyMerged_of_failed hfailed, hwire⟩

section Domains

variable {domain : Domain} {b : ExplicitModel.Builder domain.Value} {M : ExplicitModel domain.Value}
  {config : Config} {partitions : List Partition} {name : String}

/-- The check of an atom that says that a move is there gives the colors of the moves, and the check of
"some step" along the dimension gives the same. Only the latter can fail, for a frame that cannot be written
or read. -/
theorem moves_interchangeable (hbuild : b.build = .ok M)
    (hbounds : ∀ e ∈ M.edges, domain.reading.InDomain e.bound) (htable : M.stateCount ≤ Capacity.tableLimit)
    (hcount : 0 < config.partitions) (hhub : config.partitions < 0x20000000)
    (hall : Partition.all config.strategy config.partitions M.stateCount = .ok partitions)
    (hname : ExplicitModel.Builder.checkName M.dimensions name = .ok ()) (flow : Flow) (facet : Facet) :
    (domain.checker M config).Interchangeable domain.reading partitions
      (.atom (.transition name flow facet)) (.next .some (flow.course name facet) .top) ∧
    ∃ m, (domain.checker M config).verifyMerged (.atom (.transition name flow facet)) = .ok m ∧
      (∀ s color, color ∈ m.colorsAt domain.reading s ↔ ∃ e ∈ M.edges,
        e.label = .move name facet ∧ e.endpoint flow = s ∧ color ∈ domain.reading.colors e.bound) ∧
      (((domain.checker M config).Frames →
          (domain.checker M config).FramesFit domain.reading partitions) →
        (domain.checker M config).verifyMerged (.next .some (flow.course name facet) .top) = .ok m) ∧
      ((domain.checker M config).verifyMerged (.next .some (flow.course name facet) .top) = .ok m ∨
        (domain.checker M config).Frames ∧ ∃ cause,
          (domain.checker M config).verifyMerged (.next .some (flow.course name facet) .top) =
            .error (.error (.channel cause)) ∧ cause.OfWire) := by
  have hproper := ExplicitModel.proper_of_build hbuild
  have hserves := hproper.serves (R := domain.reading) hbounds
  have hvalid : ∀ scope, (Formula.atom (.transition name flow facet)).validate
      (domain.checker M config).model scope = .ok () := by
    intro scope
    exact congrArg (Except.mapError _) hname
  have hsame := (domain.checker M config).interchangeable_of_holds_iff hserves domain.codes_or_garbles
    hcount hall domain.faithful (f := .atom (.transition name flow facet))
    (g := .next .some (flow.course name facet) .top) hvalid fun color env s _ => ExplicitModel.next_course_iff.symm
  obtain ⟨m, hm⟩ := verifyMerged_atom (domain.checker M config) hserves htable domain.codes_or_garbles hcount
    hhub hall (hvalid [])
  have hshows := (settles_spec (domain.checker M config) hserves htable domain.codes_or_garbles hcount hhub hall
    (hvalid [])).2 m hm
  refine ⟨hsame, m, hm, fun s color => ?_, hsame.verifyMerged_cases htable hm⟩
  rw [hshows.mem_iff]
  constructor
  · exact fun h => h.2.2
  · rintro ⟨e, he, hlabel, hend, hcolor⟩
    refine ⟨?_, domain.reading.colors_subset (hbounds e he) hcolor, e, he, hlabel, hend, hcolor⟩
    rw [← hend]
    cases flow with
    | into => exact hproper.target_lt e he
    | out => exact hproper.source_lt e he

/-- Two states with a move there for all colors and a move back for one of them, each with a worker of its
own: the moves up into a state. -/
theorem moves_interchangeable_return : ∃ (M : ExplicitModel ColorSet) (partitions : List Partition)
    (m : StateMap ColorSet),
    ExplicitModel.Builder.build ⟨2,
        #[⟨0, 1, .move "x" .up, .full 3⟩, ⟨1, 0, .move "x" .down, .full 1⟩], [], some ["x"]⟩ = .ok M ∧
      (∀ e ∈ M.edges, e.bound.InDomain 3) ∧ M.stateCount ≤ Capacity.tableLimit ∧
      Partition.all .hash 2 M.stateCount = .ok partitions ∧
      verifyMerged ⟨.explicit 3, M.toModel (.explicit 3),
        { partitions := 2, strategy := .hash, transport := .serialized }⟩
        (.atom (.transition "x" .into .up)) = .ok m ∧
      verifyMerged ⟨.explicit 3, M.toModel (.explicit 3),
        { partitions := 2, strategy := .hash, transport := .serialized }⟩
        (.next .some { direction := .along "x" (some .up), forward := false } .top) = .ok m := by
  obtain ⟨_, m, hatom, _, hstep, _⟩ := @moves_interchangeable (.explicit 3) ⟨2,
      #[⟨0, 1, .move "x" .up, .full 3⟩, ⟨1, 0, .move "x" .down, .full 1⟩], [], some ["x"]⟩ _
      { partitions := 2, strategy := .hash, transport := .serialized } _ "x" rfl inDomain_there_and_back
      (by decide) (by decide) (by decide) rfl rfl .into .up
  exact ⟨_, _, m, rfl, inDomain_there_and_back, by decide, rfl, hatom,
    hstep fun _ => ⟨by decide, ColorSet.explicit_codes (by decide), by decide⟩⟩

/-- A move from a state that is too large for a frame to a state of another worker: the atom is found, but
the worker of the target cannot tell the other about the step. -/
theorem moves_differ_at_limit : ∃ (M : ExplicitModel ColorSet) (partitions : List Partition)
    (m : StateMap ColorSet),
    ExplicitModel.Builder.build ⟨0x80000001, #[⟨0x80000000, 1, .move "x" .up, .full 1⟩], [], none⟩ = .ok M ∧
      (∀ e ∈ M.edges, e.bound.InDomain 1) ∧ Partition.all .hash 2 M.stateCount = .ok partitions ∧
      ExplicitModel.Builder.checkName M.dimensions "x" = .ok () ∧
      verifyMerged ⟨.explicit 1, M.toModel (.explicit 1),
        { partitions := 2, strategy := .hash, transport := .serialized }⟩
        (.atom (.transition "x" .out .up)) = .ok m ∧
      verifyMerged ⟨.explicit 1, M.toModel (.explicit 1),
        { partitions := 2, strategy := .hash, transport := .serialized }⟩
        (.next .some { direction := .along "x" (some .up) } .top) =
          .error (.error (.channel (.stateTooLarge 0x80000000))) := by
  have hbuild : ExplicitModel.Builder.build ⟨0x80000001, #[⟨0x80000000, 1, .move "x" .up, .full 1⟩], [], none⟩ =
      .ok (⟨0x80000001, [⟨0x80000000, 1, .move "x" .up, .full 1⟩], [], none⟩ : ExplicitModel ColorSet) := rfl
  have hbounds : ∀ e ∈ [(⟨0x80000000, 1, .move "x" .up, .full 1⟩ : Edge ColorSet)], e.bound.InDomain 1 := by
    simp [ColorSet.inDomain_full]
  have hserves := (ExplicitModel.proper_of_build hbuild).serves (R := (Domain.explicit 1).reading) hbounds
  have hall : Partition.all .hash 2 0x80000001 =
      .ok [⟨.hash, 0, 2, 0x80000001⟩, ⟨.hash, 1, 2, 0x80000001⟩] := rfl
  obtain ⟨m, hm⟩ := verifyMerged_atom (a := .transition "x" .out .up) ⟨.explicit 1, _,
    { partitions := 2, strategy := .hash, transport := .serialized }⟩ hserves (by decide)
    (Domain.explicit 1).codes_or_garbles Nat.two_pos (by decide) hall rfl
  refine ⟨_, _, m, hbuild, hbounds, hall, rfl, hm, ?_⟩
  refine verifyMerged_of_failed (verify_someStep_of_refused (s := 0x80000000) hserves hall rfl Nat.one_lt_two
    (by decide) rfl (Nat.le_refl _) ⟨1, Nat.one_lt_two⟩ (by decide) ?_ ?_)
  · rintro color t u ⟨label, _, e, he, rfl, rfl, _⟩
    obtain rfl := List.mem_singleton.1 he
    exact ⟨rfl, by decide⟩
  · refine ⟨0, 1, .move "x" .up, rfl, _, List.mem_singleton_self _, rfl, rfl, rfl, ?_⟩
    change 0 ∈ (Reading.explicit 1).colors (Algebra.explicit 1).full.get
    rw [(Reading.explicit 1).colors_full]
    exact Finset.mem_range.2 Nat.one_pos

end Domains

end Checker

end ColoredCtl

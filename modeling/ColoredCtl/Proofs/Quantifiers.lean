import ColoredCtl.Proofs.Interchange
import Mathlib.Data.Set.Lattice

namespace ColoredCtl

open Color

namespace Checker

variable {C : Type}

/-- The workers come to maps of the states that they own, which have the colors of the formula. -/
def Evaluates (c : Checker C) (R : Reading c.algebra) (partitions : List Partition) (f : Formula) (env : Env) :
    Prop :=
  ∃ maps, c.Finishes R partitions (c.evaluator f env) maps ∧
    ∀ i : Fin c.config.partitions, (maps i).Shows R c.model.stateCount
      (fun s => s < c.model.stateCount ∧ c.config.owner c.model.stateCount s = i)
      fun s color => (s < c.model.stateCount ∧ c.config.owner c.model.stateCount s = i) ∧
        color ∈ c.valueAt R partitions f env s

/-- What the workers compute for formulas with names, from what they compute for the parts of the formulas. -/
structure TreatsNames (c : Checker C) (R : Reading c.algebra) (partitions : List Partition)
    (scope : List String) (env : Env) (name : String) (bound f : Formula) : Prop where
  evaluates : ∀ {scope env g}, g.validate c.model scope = .ok () → env.Binds c.model.stateCount scope →
    c.Evaluates R partitions g env
  /-- The colors that, for every state, are missing in the bound there or belong to the formula with the
  name standing for the state. -/
  forAll_eq : ∀ s < c.model.stateCount, (c.valueAt R partitions (.forAll name bound f) env s : Set Nat) =
    ⋂ v < c.model.stateCount, (R.palette \ c.valueAt R partitions bound env v) ∪
      c.valueAt R partitions f ((name, v) :: env) s
  /-- The colors that, for some state, are in the bound there and belong to the formula with the name
  standing for the state. -/
  forSome_eq : ∀ s < c.model.stateCount, (c.valueAt R partitions (.forSome name bound f) env s : Set Nat) =
    ⋃ v < c.model.stateCount, (c.valueAt R partitions bound env v : Set Nat) ∩
      c.valueAt R partitions f ((name, v) :: env) s
  bind_eq : ∀ s < c.model.stateCount,
    c.valueAt R partitions (.bind name f) env s = c.valueAt R partitions f ((name, s) :: env) s
  jump_eq : ∀ {other v g}, other ∈ scope → env.lookup other = some v → g.validate c.model scope = .ok () →
    ∀ s < c.model.stateCount, c.valueAt R partitions (.jump other g) env s = c.valueAt R partitions g env v
  forAll_interchangeable :
    c.Interchangeable R partitions (.forAll name bound f) (.not (.forSome name bound (.not f)))
  bind_interchangeable :
    c.Interchangeable R partitions (.bind name f) (.forSome name .top (.and (.reference name) f))

section

variable (c : Checker C) {R : Reading c.algebra} {S : Nat → Kripke} (hserves : c.model.Serves R S)
  (hcodes : c.algebra.Codes R.InDomain ∨ c.algebra.Garbles R.InDomain) (hcount : 0 < c.config.partitions)
  {partitions : List Partition}
  (hall : Partition.all c.config.strategy c.config.partitions c.model.stateCount = .ok partitions)

include hserves hcodes hcount hall

section Values

variable {name : String} {bound f : Formula} {env : Env} {scope : List String} {s : Nat}
  (henv : env.Binds c.model.stateCount scope)

include henv

theorem evaluates (hvalid : f.validate c.model scope = .ok ()) : c.Evaluates R partitions f env := by
  obtain ⟨maps, hfinishes, hshows⟩ := c.evaluator_spec hserves hcodes hcount hall hvalid henv
  refine ⟨maps, hfinishes, fun i => (hshows i).congr (fun _ hs => hs) fun s color => ?_⟩
  refine and_congr_right fun hs => ?_
  rw [c.mem_valueAt_iff hserves hcodes hcount hall hvalid henv hs.1]

theorem valueAt_forAll (hbound : bound.validate c.model scope = .ok ())
    (hf : f.validate c.model (name :: scope) = .ok ()) (hs : s < c.model.stateCount) :
    (c.valueAt R partitions (.forAll name bound f) env s : Set Nat) = ⋂ v < c.model.stateCount,
      (R.palette \ c.valueAt R partitions bound env v) ∪
        c.valueAt R partitions f ((name, v) :: env) s := by
  have hvalue := @c.mem_valueAt_iff _ _ _ hserves hcodes hcount _ hall
  have hvalid : (Formula.forAll name bound f).validate c.model scope = .ok () :=
    bind_eq_ok_iff.2 ⟨(), hbound, hf⟩
  ext color
  simp only [Set.mem_iInter, Set.mem_union, Set.mem_sdiff, Finset.mem_coe]
  rw [hvalue hvalid henv hs]
  constructor
  · rintro ⟨hcolor, hholds⟩ v hv
    by_cases hin : bound.Holds (S color) env v
    · right
      rw [hvalue hf (henv.cons name hv) hs]
      exact ⟨hcolor, hholds v (hserves.stateCount_eq color ▸ hv) hin⟩
    · left
      rw [hvalue hbound henv hv]
      exact ⟨hcolor, fun h => hin h.2⟩
  · intro hmem
    -- The state itself is one that the name may stand for, so that there is a color of the palette.
    have hcolor : color ∈ R.palette := by
      obtain ⟨h, _⟩ | h := hmem s hs
      · exact h
      · exact ((hvalue hf (henv.cons name hs) hs).1 h).1
    refine ⟨hcolor, fun v hv hin => ?_⟩
    rw [hserves.stateCount_eq] at hv
    obtain ⟨_, hnot⟩ | h := hmem v hv
    · exact absurd ((hvalue hbound henv hv).2 ⟨hcolor, hin⟩) hnot
    · exact ((hvalue hf (henv.cons name hv) hs).1 h).2

theorem valueAt_forSome (hbound : bound.validate c.model scope = .ok ())
    (hf : f.validate c.model (name :: scope) = .ok ()) (hs : s < c.model.stateCount) :
    (c.valueAt R partitions (.forSome name bound f) env s : Set Nat) = ⋃ v < c.model.stateCount,
      (c.valueAt R partitions bound env v : Set Nat) ∩ c.valueAt R partitions f ((name, v) :: env) s := by
  have hvalue := @c.mem_valueAt_iff _ _ _ hserves hcodes hcount _ hall
  have hvalid : (Formula.forSome name bound f).validate c.model scope = .ok () :=
    bind_eq_ok_iff.2 ⟨(), hbound, hf⟩
  ext color
  simp only [Set.mem_iUnion, Set.mem_inter_iff, Finset.mem_coe, exists_prop]
  rw [hvalue hvalid henv hs]
  constructor
  · rintro ⟨hcolor, v, hv, hin, hholds⟩
    rw [hserves.stateCount_eq] at hv
    exact ⟨v, hv, (hvalue hbound henv hv).2 ⟨hcolor, hin⟩,
      (hvalue hf (henv.cons name hv) hs).2 ⟨hcolor, hholds⟩⟩
  · rintro ⟨v, hv, hin, hholds⟩
    rw [hvalue hbound henv hv] at hin
    rw [hvalue hf (henv.cons name hv) hs] at hholds
    exact ⟨hin.1, v, hserves.stateCount_eq color ▸ hv, hin.2, hholds.2⟩

/-- A name that is given to a state stands for it there. -/
theorem valueAt_bind (hf : f.validate c.model (name :: scope) = .ok ()) (hs : s < c.model.stateCount) :
    c.valueAt R partitions (.bind name f) env s = c.valueAt R partitions f ((name, s) :: env) s := by
  have hvalue := @c.mem_valueAt_iff _ _ _ hserves hcodes hcount _ hall
  have hvalid : (Formula.bind name f).validate c.model scope = .ok () := hf
  ext color
  rw [hvalue hvalid henv hs, hvalue hf (henv.cons name hs) hs]
  rfl

/-- A formula at the state of a name has its colors there at all states. -/
theorem valueAt_jump (hname : name ∈ scope) {v : Nat} (hlookup : env.lookup name = some v)
    (hf : f.validate c.model scope = .ok ()) (hs : s < c.model.stateCount) :
    c.valueAt R partitions (.jump name f) env s = c.valueAt R partitions f env v := by
  have hvalue := @c.mem_valueAt_iff _ _ _ hserves hcodes hcount _ hall
  have hvalid : (Formula.jump name f).validate c.model scope = .ok () :=
    bind_eq_ok_iff.2 ⟨(), if_pos (List.contains_iff_mem.2 hname), hf⟩
  have hv : v < c.model.stateCount := by
    obtain ⟨w, hw, hlookup'⟩ := henv name hname
    cases hlookup.symm.trans hlookup'
    exact hw
  ext color
  rw [hvalue hvalid henv hs, hvalue hf henv hv]
  simp [Formula.Holds, hlookup]

end Values

/-- "For all" can be replaced by "for some". -/
theorem forAll_interchangeable (hfaithful : R.Faithful) (name : String) (bound f : Formula) :
    c.Interchangeable R partitions (.forAll name bound f) (.not (.forSome name bound (.not f))) := by
  refine c.interchangeable_of_holds_iff hserves hcodes hcount hall hfaithful (fun _ => rfl) ?_
  intro color env s _
  simp [Formula.Holds]

/-- To give a name to a state is to say that for some state, this is the one. -/
theorem bind_interchangeable (hfaithful : R.Faithful) (name : String) (f : Formula) :
    c.Interchangeable R partitions (.bind name f) (.forSome name .top (.and (.reference name) f)) := by
  refine c.interchangeable_of_holds_iff hserves hcodes hcount hall hfaithful ?_ ?_
  · intro scope
    simp [Formula.validate, checkBound]
  · intro color env s hs
    simp only [Formula.Holds, true_and, List.lookup_cons_self, Option.some.injEq]
    constructor
    · intro h
      exact ⟨s, hserves.stateCount_eq color ▸ hs, rfl, h⟩
    · rintro ⟨v, _, rfl, h⟩
      exact h

end

section Domains

variable {domain : Domain} {b : ExplicitModel.Builder domain.Value} {M : ExplicitModel domain.Value}
  {config : Config} {partitions : List Partition} {scope : List String} {env : Env} {name : String}
  {bound f : Formula}

/-- Names are treated as they are meant, however the states are divided between workers and whatever the
names in scope stand for. -/
theorem treatsNames_of_binds (hbuild : b.build = .ok M)
    (hbounds : ∀ e ∈ M.edges, domain.reading.InDomain e.bound) (hcount : 0 < config.partitions)
    (hall : Partition.all config.strategy config.partitions M.stateCount = .ok partitions)
    (henv : env.Binds M.stateCount scope)
    (hbound : bound.validate (M.toModel domain.algebra) scope = .ok ())
    (hf : f.validate (M.toModel domain.algebra) (name :: scope) = .ok ()) :
    (domain.checker M config).TreatsNames domain.reading partitions scope env name bound f := by
  have hserves := (ExplicitModel.proper_of_build hbuild).serves (R := domain.reading) hbounds
  have hcodes := domain.codes_or_garbles
  let c := domain.checker M config
  exact {
    evaluates hvalid henv := c.evaluates hserves hcodes hcount hall henv hvalid
    forAll_eq _ hs := c.valueAt_forAll hserves hcodes hcount hall henv hbound hf hs
    forSome_eq _ hs := c.valueAt_forSome hserves hcodes hcount hall henv hbound hf hs
    bind_eq _ hs := c.valueAt_bind hserves hcodes hcount hall henv hf hs
    jump_eq hname hlookup hg _ hs := c.valueAt_jump hserves hcodes hcount hall henv hname hlookup hg hs
    forAll_interchangeable :=
      c.forAll_interchangeable hserves hcodes hcount hall domain.faithful name bound f
    bind_interchangeable := c.bind_interchangeable hserves hcodes hcount hall domain.faithful name f }

/-- Two states with a step there for all colors and a step back for one of them, each with a worker of its
own: a quantifier over the states with a step to the second state, which has a name. -/
theorem treatsNames_of_binds_return : ∃ (M : ExplicitModel ColorSet) (partitions : List Partition),
    ExplicitModel.Builder.build ⟨2,
        #[⟨0, 1, .move "x" .up, .full 3⟩, ⟨1, 0, .move "x" .down, .full 1⟩], [], none⟩ = .ok M ∧
      (∀ e ∈ M.edges, e.bound.InDomain 3) ∧
      Partition.all .hash 2 M.stateCount = .ok partitions ∧
      Env.Binds [("y", 1)] M.stateCount ["y"] ∧
      Formula.validate (M.toModel (.explicit 3)) (.next .some {} (.reference "y")) ["y"] = .ok () ∧
      Formula.validate (M.toModel (.explicit 3)) (.hold .some false {} (.not (.reference "y"))
        (.reference "x")) ["x", "y"] = .ok () ∧
      TreatsNames ⟨.explicit 3, M.toModel (.explicit 3),
          { partitions := 2, strategy := .hash, transport := .serialized }⟩ (Reading.explicit 3) partitions
        ["y"] [("y", 1)] "x" (.next .some {} (.reference "y"))
        (.hold .some false {} (.not (.reference "y")) (.reference "x")) := by
  have henv : Env.Binds [("y", 1)] 2 ["y"] := (Env.binds_nil [] 2).cons "y" (by decide)
  exact ⟨_, _, rfl, inDomain_there_and_back, rfl, henv, rfl, rfl,
    @treatsNames_of_binds (.explicit 3) ⟨2,
      #[⟨0, 1, .move "x" .up, .full 3⟩, ⟨1, 0, .move "x" .down, .full 1⟩], [], none⟩ _
      { partitions := 2, strategy := .hash, transport := .serialized } _ _ _ _ _ _ rfl
      inDomain_there_and_back (by decide) rfl henv rfl rfl⟩

end Domains

end Checker

end ColoredCtl

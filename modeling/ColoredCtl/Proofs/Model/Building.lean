import ColoredCtl.Color.ColorSet
import ColoredCtl.Proofs.Model.Explicit

namespace ColoredCtl

open Color

namespace ExplicitModel

namespace Builder

variable {C : Type}

/-- Something that is said about a model. -/
inductive Call (C : Type) where
  | dimension (name : String)
  | edge (source target : Nat) (label : Label) (bound : C)
  | fullEdge (source target : Nat) (label : Label)
  | define (name : String) (values : List Binary64)

namespace Call

/-- The edge that a call adds. -/
def edge? (A : Algebra C) : Call C → Option (Edge C)
  | .edge source target label bound => some ⟨source, target, label, bound⟩
  | .fullEdge source target label => some ⟨source, target, label, A.full.get⟩
  | .dimension _ | .define _ _ => none

/-- The dimension that a call declares. -/
def dimension? : Call C → Option String
  | .dimension name => some name
  | .edge .. | .fullEdge .. | .define _ _ => none

/-- The values that a call gives to a variable. -/
def values? (name : String) : Call C → Option (List Binary64)
  | .define other values => if other = name then some values else none
  | .edge .. | .fullEdge .. | .dimension _ => none

end Call

/-- Does what a call says. -/
def perform (A : Algebra C) (b : Builder C) : Call C → Builder C
  | .dimension name => b.dimension name
  | .edge source target label bound => b.edge source target label bound
  | .fullEdge source target label => b.fullEdge A source target label
  | .define name values => b.define name values

/-- The builder for a number of states, after some calls. -/
def replay (A : Algebra C) (n : Nat) (calls : List (Call C)) : Builder C :=
  calls.foldl (perform A) { stateCount := n }

/-- The edges that were added, in order. -/
def added (A : Algebra C) (calls : List (Call C)) : List (Edge C) :=
  calls.filterMap (Call.edge? A)

/-- The dimensions that were declared. -/
def declared (calls : List (Call C)) : List String :=
  calls.filterMap Call.dimension?

/-- The values in the last definition of a variable. -/
def lastValues? (calls : List (Call C)) (name : String) : Option (List Binary64) :=
  (calls.filterMap (Call.values? name)).getLast?

/-- What was said fits together: variables have one value for each state, edges run between states, and
their moves are along declared dimensions if there are any. -/
structure Fits (A : Algebra C) (n : Nat) (calls : List (Call C)) : Prop where
  values : ∀ name values, lastValues? calls name = some values → values.length = n
  ends : ∀ e ∈ added A calls, e.source < n ∧ e.target < n
  names : declared calls ≠ [] → ∀ e ∈ added A calls, ∀ name facet, e.label = .move name facet →
    name ∈ declared calls

/-- The builder has what was said. -/
structure Records (A : Algebra C) (n : Nat) (calls : List (Call C)) (b : Builder C) : Prop where
  stateCount_eq : b.stateCount = n
  edges_eq : b.edges.toList = added A calls
  dimensions_eq : b.dimensions = if declared calls = [] then none else some (declared calls)
  mem_definitions_iff : ∀ name values,
    (name, values) ∈ b.definitions ↔ lastValues? calls name = some values

section Recording

variable {A : Algebra C} {n : Nat} {calls : List (Call C)} {b : Builder C}

theorem perform_stateCount (call : Call C) : (b.perform A call).stateCount = b.stateCount := by
  cases call <;> rfl

theorem perform_edges (call : Call C) :
    (b.perform A call).edges.toList = b.edges.toList ++ (call.edge? A).toList := by
  cases call <;> simp [perform, dimension, edge, fullEdge, define, Call.edge?]

theorem perform_dimensions (call : Call C) :
    (b.perform A call).dimensions =
      (call.dimension?.map (b.dimensions.getD [] ++ [·])).or b.dimensions := by
  cases call <;> rfl

/-- A definition replaces the one that the variable had, and no other. -/
theorem mem_perform_definitions (call : Call C) {name : String} {values : List Binary64} :
    (name, values) ∈ (b.perform A call).definitions ↔
      call.values? name = some values ∨ call.values? name = none ∧ (name, values) ∈ b.definitions := by
  cases call with
  | define other found =>
    by_cases hname : other = name
    · subst hname
      simp [perform, define, Call.values?, eq_comm]
    · simp [perform, define, Call.values?, hname, Ne.symm hname]
  | dimension _ | edge _ _ _ _ | fullEdge _ _ _ => simp [perform, dimension, edge, fullEdge, Call.values?]

theorem added_append (call : Call C) :
    added A (calls ++ [call]) = added A calls ++ (call.edge? A).toList := by
  cases hedge : call.edge? A <;> simp [added, hedge]

theorem declared_append (call : Call C) :
    declared (calls ++ [call]) = declared calls ++ call.dimension?.toList := by
  cases hdimension : call.dimension? <;> simp [declared, hdimension]

theorem lastValues?_append (call : Call C) (name : String) :
    lastValues? (calls ++ [call]) name = (call.values? name).or (lastValues? calls name) := by
  rw [lastValues?, List.filterMap_append, List.getLast?_append]
  cases hvalues : call.values? name <;> simp [hvalues, lastValues?]

/-- Each call is recorded. -/
theorem Records.perform (h : Records A n calls b) (call : Call C) :
    Records A n (calls ++ [call]) (b.perform A call) where
  stateCount_eq := by rw [perform_stateCount, h.stateCount_eq]
  edges_eq := by rw [perform_edges, h.edges_eq, added_append]
  dimensions_eq := by
    rw [perform_dimensions, h.dimensions_eq, declared_append]
    cases call.dimension? with
    | none => simp
    | some name => by_cases hnone : declared calls = [] <;> simp [hnone]
  mem_definitions_iff name values := by
    rw [mem_perform_definitions, h.mem_definitions_iff, lastValues?_append, Option.or_eq_some_iff]

/-- After any calls, the builder has what they said. -/
theorem records_replay (A : Algebra C) (n : Nat) (calls : List (Call C)) :
    Records A n calls (replay A n calls) := by
  -- The last call comes first: it finds what the calls before it have left.
  induction calls using List.reverseRecOn with
  | nil => exact ⟨rfl, rfl, rfl, by simp [replay, lastValues?]⟩
  | append_singleton calls call ih =>
    rw [replay, List.foldl_append]
    exact ih.perform call

/-- A name passes when no dimension was declared, or this one was. -/
theorem Records.checkName_eq_ok_iff (h : Records A n calls b) {name : String} :
    checkName b.dimensions name = .ok () ↔ (declared calls ≠ [] → name ∈ declared calls) := by
  rw [checkName, ite_eq_ok_iff, h.dimensions_eq]
  by_cases hnone : declared calls = [] <;> simp [hnone]

/-- The model is built if what was said fits together and there is room for the states. -/
theorem Records.build_eq_ok_iff (h : Records A n calls b) :
    (∃ M, b.build = .ok M) ↔ n ≤ Capacity.most Capacity.rowBytes ∧ Fits A n calls := by
  simp only [Builder.build_eq_ok_iff, checkEdge_eq_ok_iff, h.checkName_eq_ok_iff, h.stateCount_eq, h.edges_eq,
    Prod.forall, h.mem_definitions_iff]
  constructor
  · rintro ⟨M, hvalues, hlimit, hedges, _⟩
    refine ⟨hlimit, hvalues, fun e he => ?_, fun hsome e he name facet hlabel => ?_⟩
    · exact ⟨(hedges e he).1, (hedges e he).2.1⟩
    · exact (hedges e he).2.2 name facet hlabel hsome
  · rintro ⟨hlimit, hfits⟩
    refine ⟨_, hfits.values, hlimit, fun e he => ?_, rfl⟩
    exact ⟨(hfits.ends e he).1, (hfits.ends e he).2, fun name facet hlabel hsome =>
      hfits.names hsome e he name facet hlabel⟩

end Recording

end Builder

section Transposition

variable {C : Type} {A : Algebra C} {M : ExplicitModel C}

/-- The transitions out of a state are the edges from it, in order. -/
theorem transitionsAt_true (M : ExplicitModel C) (s : Nat) :
    M.transitionsAt true s =
      (M.edges.filter (·.source = s)).map fun e => ⟨e.target, e.label, e.bound⟩ := by
  rw [← List.filterMap_eq_map, List.filterMap_filter]
  simp [transitionsAt, Edge.view]

/-- A transition at a state is there once for each edge that looks like it. -/
theorem count_transitionsAt [DecidableEq C] (M : ExplicitModel C) (forward : Bool) (s : Nat)
    (t : Transition C) : (M.transitionsAt forward s).count t = M.edges.countP fun e => e.view forward = (s, t) := by
  rw [transitionsAt, List.count_filterMap]
  apply List.countP_congr
  intro e _
  by_cases hs : (e.view forward).1 = s <;> simp [hs, Prod.ext_iff]

/-- An edge that is seen from one end is seen from the other when time is turned around. -/
theorem view_not_eq_iff {e : Edge C} {forward : Bool} {s t : Nat} {label : Label} {bound : C} :
    e.view (!forward) = (t, ⟨s, label, bound⟩) ↔ e.view forward = (s, ⟨t, label, bound⟩) := by
  cases forward <;> simp [Edge.view] <;> tauto

/-- The transitions out of a state to another are the transitions into the other from it. -/
theorem Proper.count_successors [DecidableEq C] (hM : M.Proper) (forward : Bool) (s t : Nat) (label : Label)
    (bound : C) :
    ((M.toModel A).successors s forward).count ⟨t, label, bound⟩ =
      ((M.toModel A).predecessors t forward).count ⟨s, label, bound⟩ := by
  rw [Model.predecessors, hM.successors_eq, hM.successors_eq, count_transitionsAt, count_transitionsAt]
  simp only [view_not_eq_iff]

end Transposition

namespace Builder

variable {C : Type}

/-- Whatever was said in whatever order, the model is built if it fits together, and the transitions that it
lists at the two ends are the edges that were added. -/
theorem replay_transposes [DecidableEq C] (A : Algebra C) (n : Nat) (calls : List (Call C)) :
    ((∃ M, (replay A n calls).build = .ok M) ↔ n ≤ Capacity.most Capacity.rowBytes ∧ Fits A n calls) ∧
    ∀ M, (replay A n calls).build = .ok M →
      (∀ forward s t label bound,
        ((M.toModel A).successors s forward).count ⟨t, label, bound⟩ =
          ((M.toModel A).predecessors t forward).count ⟨s, label, bound⟩) ∧
      (∀ s, (M.toModel A).successors s true =
        ((added A calls).filter (·.source = s)).map fun e => ⟨e.target, e.label, e.bound⟩) ∧
      ∀ s forward, ∀ t ∈ (M.toModel A).successors s forward, t.target < n := by
  have hrecords := records_replay A n calls
  refine ⟨hrecords.build_eq_ok_iff, ?_⟩
  intro M hbuild
  have hM := proper_of_build hbuild
  obtain ⟨_, _, _, rfl⟩ := build_eq_ok_iff.1 hbuild
  refine ⟨hM.count_successors, ?_, ?_⟩
  · intro s
    rw [hM.successors_eq, transitionsAt_true]
    simp only [hrecords.edges_eq]
  · intro s forward t ht
    exact hrecords.stateCount_eq ▸ hM.target_lt_of_mem_successors ht

/-- A variable that is defined again, an edge that is added twice, a loop, and a dimension that is declared
after the moves along it. -/
def repeatedCalls : List (Call ColorSet) :=
  [.define "v" [], .edge 0 1 (.move "x" .up) (.full 3), .fullEdge 0 1 (.move "x" .up),
    .edge 1 1 .loop (.empty 3), .dimension "x", .define "v" [⟨0⟩, ⟨0⟩]]

theorem replay_transposes_repeated : ∃ M : ExplicitModel ColorSet,
    (replay (.explicit 3) 2 repeatedCalls).build = .ok M ∧
      (∀ forward s t label bound,
        ((M.toModel (.explicit 3)).successors s forward).count ⟨t, label, bound⟩ =
          ((M.toModel (.explicit 3)).predecessors t forward).count ⟨s, label, bound⟩) ∧
      ((M.toModel (.explicit 3)).predecessors 1 true).count ⟨0, .move "x" .up, .full 3⟩ = 2 := by
  have hcount := ((replay_transposes (.explicit 3) 2 repeatedCalls).2 _ rfl).1
  refine ⟨_, rfl, hcount, ?_⟩
  rw [← hcount]
  decide

/-- What is said fits together, but there are so many states that there cannot be a list for each. -/
theorem build_fails_at_limit : Fits (.explicit 1) 0x8000000000000000 [] ∧
    (replay (.explicit 1) 0x8000000000000000 []).build = .error (.misuse .capacity) := by
  refine ⟨⟨?_, ?_, ?_⟩, rfl⟩ <;> simp [lastValues?, added, declared]

end Builder

end ExplicitModel

end ColoredCtl

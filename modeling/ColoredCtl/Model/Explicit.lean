import ColoredCtl.Model.Basic

/-!
Models given by the list of their transitions.

A model is put together by a `Builder` and then checked as a whole. Once a dimension has been
declared, only declared ones may be used; without declarations every name is accepted.
-/

namespace ColoredCtl

open Color

/-- A transition with both of its ends. -/
structure Edge (C : Type) where
  source : Nat
  target : Nat
  label : Label
  bound : C
deriving DecidableEq

/-- The end that an edge leads from, with the transition seen from there. When time runs backward,
that is the target. -/
def Edge.view {C : Type} (e : Edge C) (forward : Bool) : Nat × Transition C :=
  if forward then (e.source, { target := e.target, label := e.label, bound := e.bound })
  else (e.target, { target := e.source, label := e.label, bound := e.bound })

/-- A transition system given by its edges, in the order in which they were added, and by the values
of its variables, state by state. -/
structure ExplicitModel (C : Type) where
  stateCount : Nat
  edges : List (Edge C)
  definitions : List (String × List Binary64)
  dimensions : Option (List String)

namespace ExplicitModel

variable {C : Type}

/-- What has been said about a model so far. -/
structure Builder (C : Type) where
  stateCount : Nat
  edges : Array (Edge C) := #[]
  definitions : List (String × List Binary64) := []
  dimensions : Option (List String) := none

namespace Builder

/-- Declares a dimension. -/
def dimension (b : Builder C) (name : String) : Builder C :=
  { b with dimensions := some (b.dimensions.getD [] ++ [name]) }

/-- Adds an edge that exists for the colors in the bound. -/
def edge (b : Builder C) (source target : Nat) (label : Label) (bound : C) : Builder C :=
  { b with edges := b.edges.push { source, target, label, bound } }

/-- Adds an edge that exists for all colors. -/
def fullEdge (A : Algebra C) (b : Builder C) (source target : Nat) (label : Label) : Builder C :=
  b.edge source target label A.full.get

/-- Defines a variable by its values, one for each state. A second definition replaces the first. -/
def define (b : Builder C) (name : String) (values : List Binary64) : Builder C :=
  { b with definitions := b.definitions.filter (·.1 ≠ name) ++ [(name, values)] }

/-- Refuses a variable that has not one value for each state. -/
def checkVariable (stateCount : Nat) (definition : String × List Binary64) :
    Except ModelError Unit :=
  if definition.2.length = stateCount then .ok ()
  else .error (.valueCount definition.1 stateCount definition.2.length)

/-- Refuses a state that the space does not have. -/
def checkState (stateCount state : Nat) : Except ModelError Unit :=
  if state < stateCount then .ok () else .error (.stateOutOfRange state stateCount)

/-- Refuses a name that is not among the declared dimensions. -/
def checkName (dimensions : Option (List String)) (name : String) : Except ModelError Unit :=
  if dimensions.all (·.contains name) then .ok () else .error (.unknownDirection name)

/-- Refuses an edge between states that are not there, or along an unknown dimension. -/
def checkEdge (b : Builder C) (edge : Edge C) : Except ModelError Unit := do
  checkState b.stateCount edge.source
  checkState b.stateCount edge.target
  match edge.label with
  | .loop => return
  | .move name _ => checkName b.dimensions name

/-- The model, if everything that was said fits together and there can be a list of transitions for each
state. -/
def build (b : Builder C) : Except (Failure ModelError) (ExplicitModel C) := do
  Failure.lift (b.definitions.forM (checkVariable b.stateCount))
  Capacity.reserve Capacity.rowBytes b.stateCount
  Failure.lift (b.edges.toList.forM b.checkEdge)
  return { stateCount := b.stateCount, edges := b.edges.toList, definitions := b.definitions,
           dimensions := b.dimensions }

end Builder

/-- The transitions at a state: the edges out of it, or into it when time runs backward. -/
def transitionsAt (M : ExplicitModel C) (forward : Bool) (state : Nat) : List (Transition C) :=
  M.edges.filterMap fun e => if (e.view forward).1 = state then some (e.view forward).2 else none

/-- The transitions of all states. -/
def rows (M : ExplicitModel C) (forward : Bool) : Array (List (Transition C)) :=
  M.edges.foldr (fun e rows => rows.modify (e.view forward).1 ((e.view forward).2 :: ·))
    (Array.replicate M.stateCount [])

/-- The row of a state holds the transitions at it, in the order of the edges. -/
theorem getElem?_rows (M : ExplicitModel C) (forward : Bool) (state : Nat) :
    (M.rows forward)[state]? =
      if state < M.stateCount then some (M.transitionsAt forward state) else none := by
  simp only [rows, transitionsAt]
  induction M.edges with
  | nil => simp [Array.getElem?_replicate]
  | cons e edges ih =>
    rw [List.foldr_cons, Array.getElem?_modify, ih, List.filterMap_cons]
    by_cases hlt : state < M.stateCount <;> by_cases hnear : (e.view forward).1 = state <;>
      simp [hlt, hnear]

/-- The colors of the transitions in a list that move along the dimension. -/
def moveColors (A : Algebra C) (name : String) (facet : Facet) (ts : List (Transition C)) :
    Except Misuse (Option C) :=
  (ts.filter (·.label = .move name facet)).foldlM
    (fun value t => A.unionOpt value (some t.bound)) none

/-- The states where a variable compares to a threshold. -/
def evalFloat (A : Algebra C) (M : ExplicitModel C) (name : String) (comparison : Comparison)
    (threshold : Binary64) : Except (Failure ModelError) (StateMap C) := do
  match M.definitions.lookup name with
  | none => throw (.error (.unknownVariable name))
  | some values =>
    let holding := (values.zipIdx.filter fun (x, _) => comparison.holds x threshold).map (·.2)
    return .constant (← StateSet.ofList M.stateCount holding) A.full.get

/-- The states with a move along a dimension, with the colors for which there is one. -/
def evalTransition (A : Algebra C) (M : ExplicitModel C) (rows : Array (List (Transition C)))
    (name : String) (facet : Facet) : Except (Failure ModelError) (StateMap C) := do
  Failure.lift (Builder.checkName M.dimensions name)
  let entries ← rows.toList.zipIdx.filterMapM fun (ts, state) => do
    match ← moveColors A name facet ts with
    | none => return none
    | some value => if ← A.nonempty value then return some (state, value) else return none
  return StateMap.ofEntries entries M.stateCount

/-- The model as a transition system. -/
def toModel (A : Algebra C) (M : ExplicitModel C) : Model C :=
  let ahead := M.rows true
  let behind := M.rows false
  { stateCount := M.stateCount
    successors := fun state forward => ((if forward then ahead else behind)[state]?).getD []
    evalAtom := fun atom =>
      match atom with
      | .float name comparison threshold => M.evalFloat A name comparison threshold
      | .transition name .out facet => M.evalTransition A ahead name facet
      | .transition name .into facet => M.evalTransition A behind name facet
    checkAtom := fun atom =>
      match atom with
      | .float name _ _ =>
        if (M.definitions.lookup name).isSome then .ok () else .error (.unknownVariable name)
      | .transition name _ _ => Builder.checkName M.dimensions name }

end ExplicitModel

end ColoredCtl

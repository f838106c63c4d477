import ColoredCtl.Check.Context

/-!
Fixed points: the colors for which some path, or every path, stays in one map until it reaches
another one.

Each worker keeps a result that only grows, and a work-set of the states whose value has grown since
it was last passed on. Passing a value on goes against the transitions. When the work-set is empty
the values for other workers are exchanged; when no worker had any, the fixed point is reached.

"Some path" passes values on as they are. "Every path" keeps for each state the transitions out of
it, each with the colors for which its target is not yet known to hold; a state holds for the colors
that none of its transitions has left uncovered.

A value can grow at most as often as the algebra is high, which bounds the number of steps.
-/

namespace ColoredCtl

open Color

/-- States to be handled, last in first out, each at most once. -/
structure WorkSet where
  stack : List Nat
  queued : StateSet

namespace WorkSet

def empty (stateCount : Nat) : WorkSet := ⟨[], .empty stateCount⟩

def push (w : WorkSet) (state : Nat) : Except Misuse WorkSet := do
  let ⟨stack, queued⟩ := w
  let (new, queued) ← queued.insert state
  return ⟨if new then state :: stack else stack, queued⟩

/-- Takes the last state, if there is one. -/
def pop : WorkSet → Option Nat × WorkSet
  | ⟨[], queued⟩ => (none, ⟨[], queued⟩)
  | ⟨state :: stack, queued⟩ => (some state, ⟨stack, queued.without state⟩)

end WorkSet

/-- A fixed point under construction, with what the rule for it remembers. -/
structure Search (C σ : Type) where
  result : Accumulator C
  work : WorkSet
  staging : Staging C
  memory : σ

namespace Search

variable {C σ : Type}

def new (ctx : Context C) (memory : σ) : Except Misuse (Search C σ) := do
  return { result := ← ctx.newResult, work := .empty ctx.stateCount, staging := .new ctx, memory }

/-- Adds a value at a state; if it grows, the state has to be handled. -/
def raise (ctx : Context C) (s : Search C σ) (state : Nat) (value : C) : Attempt (Search C σ) := do
  let ⟨result, work, staging, memory⟩ := s
  let (grew, result) ← Attempt.ofMap (result.add ctx.algebra state value)
  let work ← if grew then work.push state else pure work
  return { result, work, staging, memory }

/-- Stages a value for another worker. -/
def stage (ctx : Context C) (s : Search C σ) (owner state : Nat) (value : C) :
    Attempt (Search C σ) := do
  let ⟨result, work, staging, memory⟩ := s
  let staging ← Attempt.ofMap (staging.push ctx.algebra owner state value)
  return { result, work, staging, memory }

/-- Takes a list of values one after the other. -/
def feed (take : Search C σ → Nat → C → Attempt (Search C σ)) (s : Search C σ)
    (packet : Packet C) : Attempt (Search C σ) :=
  packet.foldlM (fun s (state, value) => take s state value) s

end Search

/-- How values are passed on. -/
structure Rule (C σ : Type) where
  /-- Handles the value of a state that has grown. -/
  propagate : Search C σ → Nat → C → Attempt (Search C σ)
  /-- Handles a value from another worker. -/
  receive : Search C σ → Nat → C → Attempt (Search C σ)

namespace Search

variable {C σ : Type}

/-- Handles states until the work-set is empty. -/
def drain (rule : Rule C σ) : (fuel : Nat) → Search C σ → Attempt (Search C σ)
  | fuel, ⟨result, work, staging, memory⟩ =>
    match work.pop with
    | (none, work) => .ok ⟨result, work, staging, memory⟩
    | (some state, work) =>
      match fuel with
      | 0 => .error (.error .unsettled)
      | fuel + 1 => do
        match result.get? state with
        | none => drain rule fuel ⟨result, work, staging, memory⟩
        | some value => drain rule fuel (← rule.propagate ⟨result, work, staging, memory⟩ state value)

/-- More than the number of states that one call of `drain` can have to handle. -/
def drainFuel (ctx : Context C) : Nat := ctx.stateCount * (ctx.algebra.height + 1)

/-- Alternates between handling states and exchanging values until nothing is left to exchange. -/
def saturate (ctx : Context C) (rule : Rule C σ) : (fuel : Nat) → Search C σ → Worker C (StateMap C)
  | 0, _ => .fail (.error .unsettled)
  | fuel + 1, s => do
    let s ← drain rule (drainFuel ctx) s
    match ← Worker.exchange s.staging.outgoing with
    | none => return s.result.freeze
    | some received =>
      let s := { s with staging := s.staging.clear }
      saturate ctx rule fuel (← s.feed rule.receive received)

/-- More than the number of rounds of a fixed point: every round but the first and the last comes
after some value has grown. -/
def roundFuel (ctx : Context C) : Nat := ctx.stateCount * ctx.algebra.height + 2

/-- The fixed point of a rule over the given seeds. -/
def fixedPoint (ctx : Context C) (rule : Rule C σ) (memory : σ) (seeds : Packet C) :
    Worker C (StateMap C) := do
  let start ← Search.new ctx memory
  let s ← start.feed (raise ctx) seeds
  saturate ctx rule (roundFuel ctx) s

end Search

namespace Until

variable {C : Type}

/-- The states of a map with the colors for which no transition leads on. -/
def deadlocks (ctx : Context C) (course : Course) (path : StateMap C) :
    Except Misuse (Packet C) := do
  (← path.states).filterMapM fun state => do
    match ← path.get? ctx.algebra state with
    | none => return none
    | some value =>
      let bounds := (course.successors ctx.model state).map (·.bound)
      let outgoing ← ctx.algebra.unionAll ctx.algebra.empty.get bounds
      let dead ← ctx.algebra.diff value outgoing
      return (← ctx.algebra.nonempty? dead).map (state, ·)

/-- What holds from the start: the map to be reached and, in the weak form, the ends of paths. -/
def seeds (ctx : Context C) (weak : Bool) (course : Course) (path reach : StateMap C) :
    Except Misuse (Packet C) := do
  let reached ← reach.entries ctx.algebra
  if weak then return reached ++ (← deadlocks ctx course path) else return reached

/-- Adds the part of a value that the path allows. -/
def offer {σ : Type} (ctx : Context C) (path : StateMap C) (s : Search C σ) (state : Nat)
    (value : C) : Attempt (Search C σ) := do
  match ← path.get? ctx.algebra state with
  | none => return s
  | some allowed => s.raise ctx state (← ctx.algebra.inter value allowed)

/-- Passes a value on along one transition. -/
def passOn (ctx : Context C) (path : StateMap C) (value : C) (s : Search C Unit)
    (t : Transition C) : Attempt (Search C Unit) := do
  let pushed ← ctx.algebra.inter value t.bound
  if ← ctx.algebra.maybeNonempty pushed then
    let owner := ctx.partition.owner t.target
    if owner = ctx.id then offer ctx path s t.target pushed
    else s.stage ctx owner t.target pushed
  else return s

/-- The rule for some path. -/
def someRule (ctx : Context C) (course : Course) (path : StateMap C) : Rule C Unit where
  propagate s state value :=
    (course.predecessors ctx.model state).foldlM (passOn ctx path value) s
  receive s state value := offer ctx path s state value

/-- The colors for which some path stays in the first map until it reaches the second. -/
def somePath (ctx : Context C) (weak : Bool) (course : Course) (path reach : StateMap C) :
    Worker C (StateMap C) := do
  let seeds ← seeds ctx weak course path reach
  Search.fixedPoint ctx (someRule ctx course path) () seeds

/-- The transitions out of a state, each with the colors for which its target is not known to hold,
and the colors for which the state can hold by them at all. -/
structure Coverage (C : Type) where
  base : C
  edges : List (Nat × C)

/-- What the rule for every path remembers: the coverage of each state, and for each target the
states with transitions to it, the last one noted first. -/
structure Cover (C : Type) where
  coverage : Std.TreeMap Nat (Coverage C) := ∅
  dependents : Std.TreeMap Nat (List Nat) := ∅

namespace Cover

/-- The coverage of a state of the path at the start; none when no transition leads on. -/
def initial? (ctx : Context C) (course : Course) (state : Nat) (value : C) :
    Except Misuse (Option (Coverage C)) := do
  let edges := (course.successors ctx.model state).map fun t => (t.target, t.bound)
  let outgoing ← ctx.algebra.unionAll ctx.algebra.empty.get (edges.map (·.2))
  let base ← ctx.algebra.inter value outgoing
  if ← ctx.algebra.maybeNonempty base then return some { base, edges } else return none

/-- Puts a state in front that is not there already. -/
def consOnce (state : Nat) (states : List Nat) : List Nat :=
  if states.head? = some state then states else state :: states

/-- Notes the coverage of a state. -/
def insert (cover : Cover C) (state : Nat) (coverage : Coverage C) : Cover C where
  coverage := cover.coverage.insert state coverage
  dependents := coverage.edges.foldl
    (fun deps (target, _) =>
      deps.insert target (consOnce state (deps[target]?.getD [])))
    cover.dependents

/-- The cover of the given states of a path at the start. -/
def ofStates (ctx : Context C) (course : Course) (path : StateMap C) (states : List Nat) :
    Except Misuse (Cover C) := do
  let built ← states.filterMapM fun state => do
    match ← path.get? ctx.algebra state with
    | none => return none
    | some value => return (← initial? ctx course state value).map (state, ·)
  return built.foldl (fun cover (state, coverage) => cover.insert state coverage) {}

/-- The cover of a path at the start. -/
def ofPath (ctx : Context C) (course : Course) (path : StateMap C) :
    Except Misuse (Cover C) := do
  ofStates ctx course path (← path.states)

/-- Takes a value of the target from the uncovered colors of a transition, and tells whether they
became fewer. -/
def shrinkEdge (A : Algebra C) (target : Nat) (value : C) (edge : Nat × C) :
    Except Misuse (Bool × (Nat × C)) := do
  if edge.1 = target then
    if ← A.maybeNonempty (← A.inter edge.2 value) then
      return (true, (edge.1, ← A.diff edge.2 value))
    else return (false, edge)
  else return (false, edge)

end Cover

/-- Takes a value of a target into account at one state with a transition to it. -/
def notifyState (ctx : Context C) (target : Nat) (value : C) (s : Search C (Cover C))
    (state : Nat) : Attempt (Search C (Cover C)) := do
  match s.memory.coverage[state]? with
  | none => return s
  | some coverage =>
    let shrink := Cover.shrinkEdge ctx.algebra target value
    let shrunk : List (Bool × (Nat × C)) ← (coverage.edges.mapM shrink : Except Misuse _)
    if shrunk.any (·.1) then
      let edges := shrunk.map (·.2)
      let coverage := { coverage with edges }
      let s := { s with memory.coverage := s.memory.coverage.insert state coverage }
      let remaining ← ctx.algebra.unionAll ctx.algebra.empty.get (edges.map (·.2))
      let covered ← ctx.algebra.diff coverage.base remaining
      s.raise ctx state covered
    else return s

/-- Takes a value of a target into account at all states with transitions to it. -/
def notify (ctx : Context C) (s : Search C (Cover C)) (target : Nat) (value : C) :
    Attempt (Search C (Cover C)) :=
  (s.memory.dependents[target]?.getD []).reverse.foldlM (notifyState ctx target value) s

/-- The rule for every path. -/
def everyRule (ctx : Context C) (course : Course) : Rule C (Cover C) where
  propagate s state value := do
    let s ← (course.predecessors ctx.model state).foldlM
      (fun s t => do
        let owner := ctx.partition.owner t.target
        if owner = ctx.id then return s else s.stage ctx owner state value)
      s
    notify ctx s state value
  receive s state value := notify ctx s state value

/-- The colors for which every path stays in the first map until it reaches the second. -/
def everyPath (ctx : Context C) (weak : Bool) (course : Course) (path reach : StateMap C) :
    Worker C (StateMap C) := do
  let seeds ← seeds ctx weak course path reach
  let cover ← Cover.ofPath ctx course path
  Search.fixedPoint ctx (everyRule ctx course) cover seeds

end Until

end ColoredCtl

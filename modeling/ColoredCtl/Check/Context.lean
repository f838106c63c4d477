import ColoredCtl.Check.Worker
import ColoredCtl.Formula.Basic

/-!
What one worker computes with, and what it prepares for others.

A worker keeps the values of the states that it owns, and sends values for other states to their
owners. They are staged, one map for each owner, until the next round.
-/

namespace ColoredCtl

open Color

/-- The surroundings of one worker. -/
structure Context (C : Type) where
  algebra : Algebra C
  model : Model C
  partition : Partition
  /-- The states that the worker owns. -/
  localSet : StateSet

namespace Context

variable {C : Type}

def make (algebra : Algebra C) (model : Model C) (partition : Partition) :
    Except Misuse (Context C) := do
  return { algebra, model, partition, localSet := ← partition.localSet }

def id (ctx : Context C) : Nat := ctx.partition.id

def stateCount (ctx : Context C) : Nat := ctx.partition.stateCount

/-- All colors at each state that the worker owns. -/
def localMap (ctx : Context C) : StateMap C := .constant ctx.localSet ctx.algebra.full.get

/-- An empty map for the states that the worker owns. -/
def newResult (ctx : Context C) : Except Misuse (Accumulator C) :=
  ctx.partition.accumulator ctx.algebra ctx.id

/-- Sends a packet to all other workers, and gives all packets that were sent, the worker's own last.
An empty packet is not sent. -/
def broadcast (ctx : Context C) (packet : Packet C) : Worker C (Packet C) := do
  let out := (List.range ctx.partition.count).map fun destination =>
    if destination ≠ ctx.id && !packet.isEmpty then some packet else none
  let received ← Worker.exchange out
  return received.getD [] ++ packet

end Context

/-- Values for the states of other workers, by owner. There is no map for the worker itself. -/
structure Staging (C : Type) where
  maps : List (Option (Accumulator C))

namespace Staging

variable {C : Type}

def new (ctx : Context C) : Staging C :=
  ⟨(List.range ctx.partition.count).map fun owner =>
    if owner = ctx.id then none else some (.newSparse ctx.stateCount)⟩

/-- Adds a value by union. What is meant for an owner that has no map is dropped. -/
def push (A : Algebra C) (staging : Staging C) (owner state : Nat) (value : C) :
    Except (Failure MapError) (Staging C) := do
  match staging.maps[owner]? with
  | some (some acc) =>
    let (_, acc) ← acc.add A state value
    return ⟨staging.maps.set owner (some acc)⟩
  | _ => return staging

/-- What is staged, as what is sent in a round; nothing for an owner without values. -/
def outgoing (staging : Staging C) : Outgoing C :=
  staging.maps.map fun acc =>
    match acc with
    | none => none
    | some acc => if acc.isEmpty then none else some acc.entries

/-- The staging after all was sent. -/
def clear (staging : Staging C) : Staging C :=
  ⟨staging.maps.map fun acc => acc.map Accumulator.clear⟩

end Staging

/-- Values on their way: those for states of the worker itself, and those for states of others. -/
structure Scatter (C : Type) where
  own : Accumulator C
  staging : Staging C

namespace Scatter

variable {C : Type}

def new (ctx : Context C) : Except Misuse (Scatter C) := do
  return { own := ← ctx.newResult, staging := .new ctx }

/-- Adds a value by union, where it belongs. -/
def add (ctx : Context C) (s : Scatter C) (entry : Nat × C) :
    Except (Failure MapError) (Scatter C) := do
  let ⟨own, staging⟩ := s
  let owner := ctx.partition.owner entry.1
  if owner = ctx.id then
    let (_, own) ← own.add ctx.algebra entry.1 entry.2
    return { own, staging }
  else return { own, staging := ← staging.push ctx.algebra owner entry.1 entry.2 }

end Scatter

/-- Adds the values of a packet by union. -/
def Accumulator.addAll {C : Type} (A : Algebra C) (acc : Accumulator C) (packet : Packet C) :
    Except (Failure MapError) (Accumulator C) :=
  packet.foldlM (fun acc (state, value) => do return (← acc.add A state value).2) acc

end ColoredCtl

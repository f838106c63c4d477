import ColoredCtl.Check.FirstOrder
import ColoredCtl.Check.Memo
import ColoredCtl.Check.Next
import ColoredCtl.Check.Until

/-!
Evaluation of formulas by one worker.

Within one evaluation each formula is computed once: its map is kept, and used again wherever an
equal formula stands under the same names. An implication is computed as a disjunction, and an
equivalence as a disjunction of conjunctions; they share their parts with equal formulas elsewhere.
-/

namespace ColoredCtl

open Color

/-- The states that names stand for, the innermost name first. -/
abbrev Env := List (String × Nat)

/-- A computation that keeps the maps of the formulas computed so far, under the same names. -/
abbrev Shared (C : Type) := StateT (Memo C) (Worker C)

/-- The map of a formula that was computed before, or else a computed map, which is kept. -/
def share {C : Type} (f : Formula) (compute : Shared C (StateMap C)) : Shared C (StateMap C) := do
  match (← get).find? f with
  | some m => return m
  | none =>
    let m ← compute
    modify (·.insert f m)
    return m

namespace Context

variable {C : Type}

def evalNot (ctx : Context C) (f : Formula) (m : Shared C (StateMap C)) : Shared C (StateMap C) :=
  share (.not f) do ctx.localMap.diff (← m)

def evalAnd (f g : Formula) (m k : Shared C (StateMap C)) : Shared C (StateMap C) :=
  share (.and f g) do
    let m ← m
    let k ← k
    m.inter k

def evalOr (f g : Formula) (m k : Shared C (StateMap C)) : Shared C (StateMap C) :=
  share (.or f g) do
    let m ← m
    let k ← k
    m.union k

/-- The states that the worker owns where an atom holds. -/
def evalAtom (ctx : Context C) (a : Atom) : Worker C (StateMap C) := do
  let m ← Attempt.ofModel (ctx.model.evalAtom a)
  ctx.localMap.inter m

/-- The state that a name stands for. -/
def resolve (env : Env) (name : String) : Attempt Nat :=
  match env.lookup name with
  | some state => .ok state
  | none => .error (.error (.unboundVariable name))

/-- The named state, if the worker owns it. -/
def evalReference (ctx : Context C) (env : Env) (name : String) : Worker C (StateMap C) := do
  let state ← resolve env name
  if ctx.partition.isLocal state then return .single state ctx.algebra.full.get ctx.stateCount
  else return .empty ctx.stateCount

/-- The map of a formula at the states that the worker owns. -/
def eval (ctx : Context C) : Formula → Env → Shared C (StateMap C)
  | .top, _ => share .top (pure ctx.localMap)
  | .bottom, _ => share .bottom (pure (.empty ctx.stateCount))
  | .atom a, _ => share (.atom a) (ctx.evalAtom a)
  | .reference name, env => share (.reference name) (ctx.evalReference env name)
  | .not f, env => ctx.evalNot f (ctx.eval f env)
  | .and f g, env => evalAnd f g (ctx.eval f env) (ctx.eval g env)
  | .or f g, env => evalOr f g (ctx.eval f env) (ctx.eval g env)
  | .implies f g, env =>
    share (.implies f g) (evalOr (.not f) g (ctx.evalNot f (ctx.eval f env)) (ctx.eval g env))
  | .equal f g, env =>
    let m := ctx.eval f env
    let k := ctx.eval g env
    share (.equal f g) (evalOr (.and f g) (.and (.not f) (.not g)) (evalAnd f g m k)
      (evalAnd (.not f) (.not g) (ctx.evalNot f m) (ctx.evalNot g k)))
  | .next quantifier course f, env =>
    share (.next quantifier course f) do
      let phi ← ctx.eval f env
      match quantifier with
      | .some => Next.someStep ctx course phi
      | .all => Next.everyStep ctx course phi
  | .hold quantifier weak course f g, env =>
    share (.hold quantifier weak course f g) do
      let path ← ctx.eval f env
      let reach ← ctx.eval g env
      match quantifier with
      | .some => Until.somePath ctx weak course path reach
      | .all => Until.everyPath ctx weak course path reach
  | .bind name f, env =>
    share (.bind name f)
      (FirstOrder.bind ctx fun state => (ctx.eval f ((name, state) :: env)).run' {})
  | .jump name f, env =>
    share (.jump name f) do
      let state ← resolve env name
      let m ← ctx.eval f env
      FirstOrder.jump ctx state m
  | .forAll name bound f, env =>
    share (.forAll name bound f) do
      let bound ← ctx.eval bound env
      FirstOrder.forAll ctx bound fun state => (ctx.eval f ((name, state) :: env)).run' {}
  | .forSome name bound f, env =>
    share (.forSome name bound f) do
      let bound ← ctx.eval bound env
      FirstOrder.forSome ctx bound fun state => (ctx.eval f ((name, state) :: env)).run' {}

/-- The values of a formula without free names that are not empty. -/
def check (ctx : Context C) (f : Formula) : Worker C (StateMap C) := do
  let m ← (ctx.eval f []).run' {}
  m.materialize ctx.algebra

end Context

end ColoredCtl

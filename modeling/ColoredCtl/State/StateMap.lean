import ColoredCtl.Capacity
import ColoredCtl.Color.Algebra
import ColoredCtl.State.StateSet
import Std.Data.TreeMap

/-!
Maps from states to color sets.

A map is held in one of several layouts, or is a view of other maps: the pointwise intersection,
union or difference of two maps, whose values are computed when asked for. A view keeps the set of
states it may have a value at, computed once from its operands.

`get?` is the view that tells what a map is. `entries` lists the values in increasing order of the
states; those of a view leave out empty values. `foldEntries` goes through the same values one by
one, and computes the next value of a view only when all before it have been dealt with, so that the
first failure on the way is the one that counts. Where no value fails to be computed it is a fold over
`entries` (`foldEntries_eq`).
-/

namespace ColoredCtl

open Color

inductive MapError where
  | outOfRange (state : Nat) (span : Span)
  | algebra (cause : AlgebraError)
deriving DecidableEq, Repr

def MapError.message : MapError → String
  | .outOfRange state span => s!"state {state} outside of map span {span.text}"
  | .algebra cause => cause.message

/-- A partial map from the states below some bound to color sets. -/
inductive StateMap (C : Type) where
  /-- One slot for each state from `start` on. -/
  | dense (start : Nat) (values : Array (Option C)) (stateCount : Nat)
  /-- An entry for each state that has a value. -/
  | sparse (values : Std.TreeMap Nat C) (stateCount : Nat)
  /-- The same value at each state of a span. -/
  | span (range : Span) (value : C) (stateCount : Nat)
  /-- A value at one state. -/
  | single (state : Nat) (value : C) (stateCount : Nat)
  /-- The same value at each state of a set. -/
  | constant (domain : StateSet) (value : C)
  /-- No value. -/
  | empty (stateCount : Nat)
  /-- Intersection of two maps, where both have a value. -/
  | interView (left right : StateMap C) (domain : StateSet)
  /-- Union of two maps, where either has a value. -/
  | unionView (left right : StateMap C) (domain : StateSet)
  /-- Difference of two maps, where the first has a value. -/
  | diffView (whole part : StateMap C) (domain : StateSet)

namespace StateMap

variable {C : Type}

/-- Number of states in the space. -/
def stateCount : StateMap C → Nat
  | .dense _ _ n | .sparse _ n | .span _ _ n | .single _ _ n | .empty n => n
  | .constant domain _ | .interView _ _ domain | .unionView _ _ domain | .diffView _ _ domain =>
    domain.stateCount

/-- The first slots of a dense layout that have a value, with their positions, in front of a list. -/
def firstSlots (values : Array (Option C)) :
    (count : Nat) → (acc : List (Nat × C)) → List (Nat × C)
  | 0, acc => acc
  | i + 1, acc =>
    firstSlots values i
      (match values.getD i none with
      | some value => (i, value) :: acc
      | none => acc)

/-- The slots of a dense layout that have a value, with their positions. -/
def slots (values : Array (Option C)) : List (Nat × C) := firstSlots values values.size []

theorem firstSlots_eq (values : Array (Option C)) (count : Nat) (acc : List (Nat × C)) :
    firstSlots values count acc =
      ((List.range count).filterMap fun i => (values.getD i none).map (i, ·)) ++ acc := by
  induction count generalizing acc with
  | zero => rfl
  | succ i ih =>
    rw [firstSlots, ih, List.range_succ, List.filterMap_append, List.append_assoc]
    cases h : values.getD i none <;> simp only [List.filterMap_cons, List.filterMap_nil, h,
      Option.map_none, Option.map_some, List.nil_append, List.cons_append]

/-- The slots are the positions of the layout that have a value. -/
theorem slots_eq (values : Array (Option C)) :
    slots values =
      (List.range values.size).filterMap fun i => (values.getD i none).map (i, ·) := by
  rw [slots, firstSlots_eq, List.append_nil]

/-- The entry of a slot: positions are counted from the first state of the layout. -/
def slotEntry (start : Nat) (slot : Nat × C) : Except Misuse (Nat × C) := do
  return (← Word.add start slot.1, slot.2)

/-- The entries of a dense layout. -/
def denseEntries (start : Nat) (values : Array (Option C)) : Except Misuse (List (Nat × C)) :=
  (slots values).mapM (slotEntry start)

/-- The states that may have a value, in increasing order. -/
def states : StateMap C → Except Misuse (List Nat)
  | .dense start values _ => return (← denseEntries start values).map (·.1)
  | .sparse values _ => .ok (values.toList.map (·.1))
  | .span range _ _ => do
    Capacity.reserve Capacity.wordBytes range.length
    return range.toList
  | .single state _ _ => .ok [state]
  | .empty _ => .ok []
  | .constant domain _ | .interView _ _ domain | .unionView _ _ domain | .diffView _ _ domain =>
    .ok domain.toList

/-- Upper bound for the number of entries. -/
def sizeHint : StateMap C → Nat
  | .dense _ values _ => (slots values).length
  | .sparse values _ => values.size
  | .span range _ _ => range.length
  | .single _ _ _ => 1
  | .empty _ => 0
  | .constant domain _ | .interView _ _ domain | .unionView _ _ domain | .diffView _ _ domain =>
    domain.size

/-- The slot of a state in a dense layout. -/
def slot? (start : Nat) (values : Array (Option C)) (state : Nat) : Option C :=
  if start ≤ state then (values[state - start]?).join else none

/-- Whether the map may have a value at the state. -/
def contains : StateMap C → Nat → Bool
  | .dense start values _, state => (slot? start values state).isSome
  | .sparse values _, state => values.contains state
  | .span range _ _, state => range.contains state
  | .single only _ _, state => state == only
  | .empty _, _ => false
  | .constant domain _, state | .interView _ _ domain, state | .unionView _ _ domain, state
  | .diffView _ _ domain, state => domain.contains state

/-- The set of the states that may have a value. -/
def domain : StateMap C → Except Misuse StateSet
  | .constant domain _ | .interView _ _ domain | .unionView _ _ domain | .diffView _ _ domain =>
    .ok domain
  | .dense start values n =>
    (slots values).foldlM
      (fun s slot => do return (← s.insert (← Word.add start slot.1)).2) (StateSet.empty n)
  | .sparse values n => StateSet.ofList n (values.toList.map (·.1))
  | .span range _ n => StateSet.ofSpan n range
  | .single state _ n => StateSet.ofList n [state]
  | .empty n => .ok (.empty n)

/-- The value at a state. -/
def get? (A : Algebra C) : StateMap C → Nat → Except Misuse (Option C)
  | .dense start values _, state => .ok (slot? start values state)
  | .sparse values _, state => .ok values[state]?
  | .span range value _, state => .ok (if range.contains state then some value else none)
  | .single only value _, state => .ok (if state = only then some value else none)
  | .empty _, _ => .ok none
  | .constant domain value, state => .ok (if domain.contains state then some value else none)
  | .interView left right domain, state => do
    if domain.contains state then
      match ← get? A left state with
      | none => return none
      | some a =>
        match ← get? A right state with
        | none => return none
        | some b => return some (← A.inter a b)
    else return none
  | .unionView left right domain, state => do
    if domain.contains state then
      let a ← get? A left state
      let b ← get? A right state
      A.unionOpt a b
    else return none
  | .diffView whole part domain, state => do
    if domain.contains state then
      match ← get? A whole state with
      | none => return none
      | some a =>
        match ← get? A part state with
        | none => return some a
        | some b => return some (← A.diff a b)
    else return none

/-- The entry of a view at a state of its domain; none where the value is empty. -/
def viewItem? (A : Algebra C) (m : StateMap C) (state : Nat) : Except Misuse (Option (Nat × C)) := do
  match ← m.get? A state with
  | none => return none
  | some a => if ← A.nonempty a then return some (state, a) else return none

/-- The entries of a view: the values at the states of its domain that are not empty. -/
def viewEntries (A : Algebra C) (m : StateMap C) (domain : StateSet) :
    Except Misuse (List (Nat × C)) :=
  domain.toList.filterMapM (m.viewItem? A)

/-- The states with their values, in increasing order. -/
def entries (A : Algebra C) : StateMap C → Except Misuse (List (Nat × C))
  | .dense start values _ => denseEntries start values
  | .sparse values _ => .ok values.toList
  | .span range value _ => do
    Capacity.reserve A.domain.entryBytes range.length
    return range.toList.map (·, value)
  | .single state value _ => .ok [(state, value)]
  | .empty _ => .ok []
  | .constant domain value => .ok (domain.toList.map (·, value))
  | .interView left right domain => viewEntries A (.interView left right domain) domain
  | .unionView left right domain => viewEntries A (.unionView left right domain) domain
  | .diffView whole part domain => viewEntries A (.diffView whole part domain) domain

section Fold

variable {σ ε : Type}

/-- Goes through `count` states from `state` on that have the same value. -/
def foldSpan (visit : σ → Nat × C → Except ε σ) (value : C) :
    (count state : Nat) → σ → Except ε σ
  | 0, _, s => .ok s
  | count + 1, state, s => do foldSpan visit value count (state + 1) (← visit s (state, value))

/-- Goes through the entries of a view at the listed states. -/
def foldView [MonadLiftT (Except Misuse) (Except ε)] (A : Algebra C) (m : StateMap C)
    (visit : σ → Nat × C → Except ε σ) : List Nat → σ → Except ε σ
  | [], s => .ok s
  | state :: rest, s => do
    match ← m.viewItem? A state with
    | none => foldView A m visit rest s
    | some entry => foldView A m visit rest (← visit s entry)

/-- Goes through the states with their values. -/
def foldEntries [MonadLiftT (Except Misuse) (Except ε)] (A : Algebra C)
    (visit : σ → Nat × C → Except ε σ) (s : σ) : StateMap C → Except ε σ
  | .dense start values _ =>
    (slots values).foldlM (fun s slot => do visit s (← slotEntry start slot)) s
  | .sparse values _ => values.toList.foldlM visit s
  | .span range value _ => foldSpan visit value range.length range.start s
  | .single state value _ => visit s (state, value)
  | .empty _ => .ok s
  | .constant domain value => domain.toList.foldlM (fun s state => visit s (state, value)) s
  | .interView left right domain => foldView A (.interView left right domain) visit domain.toList s
  | .unionView left right domain => foldView A (.unionView left right domain) visit domain.toList s
  | .diffView whole part domain => foldView A (.diffView whole part domain) visit domain.toList s

theorem foldSpan_eq (visit : σ → Nat × C → Except ε σ) (value : C) (count state : Nat) (s : σ) :
    foldSpan visit value count state s =
      ((List.range' state count).map (·, value)).foldlM visit s := by
  induction count generalizing state s with
  | zero => rfl
  | succ count ih =>
    rw [foldSpan, List.range'_succ, List.map_cons, List.foldlM_cons]
    exact bind_congr fun s => ih (state + 1) s

/-- Where all entries of a view can be computed, going through them is a fold over them. -/
theorem foldView_eq [MonadLiftT (Except Misuse) (Except ε)] {A : Algebra C} {m : StateMap C}
    (hlift : ∀ {α : Type} (a : α), (liftM (.ok a : Except Misuse α) : Except ε α) = .ok a)
    {states : List Nat} {entries : List (Nat × C)}
    (h : states.filterMapM (m.viewItem? A) = .ok entries)
    (visit : σ → Nat × C → Except ε σ) (s : σ) :
    foldView A m visit states s = entries.foldlM visit s := by
  induction states generalizing s entries with
  | nil =>
    rw [List.filterMapM_nil] at h
    cases h
    rfl
  | cons state rest ih =>
    rw [List.filterMapM_cons] at h
    rw [foldView]
    cases hentry : m.viewItem? A state with
    | error cause =>
      rw [hentry] at h
      cases h
    | ok found =>
      rw [hentry] at h
      rw [hlift]
      cases found with
      | none => exact ih h s
      | some entry =>
        cases hrest : rest.filterMapM (m.viewItem? A) with
        | error cause =>
          simp only [hrest] at h
          cases h
        | ok others =>
          simp only [hrest] at h
          cases h
          rw [List.foldlM_cons]
          exact bind_congr fun s => ih hrest s

/-- Where all items of a list can be computed, going through them one by one is a fold over them. -/
theorem foldlM_of_mapM [MonadLiftT (Except Misuse) (Except ε)] {α β : Type}
    (hlift : ∀ {α : Type} (a : α), (liftM (.ok a : Except Misuse α) : Except ε α) = .ok a)
    {f : α → Except Misuse β} {xs : List α} {ys : List β}
    (h : xs.mapM f = .ok ys) (visit : σ → β → Except ε σ) (s : σ) :
    xs.foldlM (fun s x => do visit s (← f x)) s = ys.foldlM visit s := by
  induction xs generalizing s ys with
  | nil =>
    rw [List.mapM_nil] at h
    cases h
    rfl
  | cons x xs ih =>
    rw [List.mapM_cons] at h
    rw [List.foldlM_cons]
    cases hx : f x with
    | error cause =>
      rw [hx] at h
      cases h
    | ok y =>
      cases hrest : xs.mapM f with
      | error cause =>
        rw [hx, hrest] at h
        cases h
      | ok others =>
        rw [hx, hrest] at h
        cases h
        rw [List.foldlM_cons, hlift]
        exact bind_congr fun s => ih hrest s

/-- Where all entries can be computed, going through them is a fold over them. -/
theorem foldEntries_eq [MonadLiftT (Except Misuse) (Except ε)]
    (hlift : ∀ {α : Type} (a : α), (liftM (.ok a : Except Misuse α) : Except ε α) = .ok a)
    {A : Algebra C} {m : StateMap C} {entries : List (Nat × C)}
    (h : m.entries A = .ok entries) (visit : σ → Nat × C → Except ε σ) (s : σ) :
    m.foldEntries A visit s = entries.foldlM visit s := by
  cases m with
  | dense start values n => exact foldlM_of_mapM hlift h visit s
  | sparse values n =>
    cases h
    rfl
  | span range value n =>
    rw [foldEntries, foldSpan_eq]
    rw [StateMap.entries] at h
    cases hroom : Capacity.reserve A.domain.entryBytes range.length with
    | error cause =>
      rw [hroom] at h
      cases h
    | ok _ =>
      rw [hroom] at h
      cases h
      rfl
  | single state value n =>
    cases h
    exact (bind_pure _).symm
  | empty n =>
    cases h
    rfl
  | constant domain value =>
    cases h
    rw [List.foldlM_map]
    rfl
  | interView left right domain => exact foldView_eq hlift h visit s
  | unionView left right domain => exact foldView_eq hlift h visit s
  | diffView whole part domain => exact foldView_eq hlift h visit s

end Fold

/-- The pointwise intersection of two maps over the same space. -/
def inter (left right : StateMap C) : Except Misuse (StateMap C) := do
  let a ← left.domain
  let b ← right.domain
  return .interView left right (← a.inter b)

/-- The pointwise union of two maps over the same space. -/
def union (left right : StateMap C) : Except Misuse (StateMap C) := do
  let a ← left.domain
  let b ← right.domain
  return .unionView left right (← a.union b)

/-- The pointwise difference of two maps. -/
def diff (whole part : StateMap C) : Except Misuse (StateMap C) := do
  return .diffView whole part (← whole.domain)

/-- The sparse map with the given entries; a later entry replaces an earlier one. -/
def ofEntries (entries : List (Nat × C)) (stateCount : Nat) : StateMap C :=
  .sparse (entries.foldl (fun m (state, value) => m.insert state value) ∅) stateCount

/-- The map with the same value at each state of a set, without entries for an empty value. -/
def constantOn (A : Algebra C) (domain : StateSet) (value : C) : Except Misuse (StateMap C) := do
  if domain.isEmpty then return .empty domain.stateCount
  else if ← A.isEmpty value then return .empty domain.stateCount
  else return .constant domain value

/-- The sparse map of the values that are not empty. -/
def materialize (A : Algebra C) (m : StateMap C) : Except Misuse (StateMap C) := do
  Capacity.reserveTable m.sizeHint
  let kept ← m.foldEntries A
    (fun kept (state, value) => do
      if ← A.nonempty value then return kept.insert state value else return kept)
    ∅
  return .sparse kept m.stateCount

/-- The sparse map of the values moved to another algebra over the same domain. -/
def transfer (source target : Algebra C) (m : StateMap C) :
    Except (Failure MapError) (StateMap C) := do
  Capacity.reserveTable m.sizeHint
  let moved ← m.foldEntries source
    (fun moved (state, value) => do
      let value ← (source.transfer target value).mapError (Failure.map .algebra)
      return moved.insert state value)
    ∅
  return .sparse moved m.stateCount

/-- The entries of several maps together; those of a later map replace those of an earlier one. -/
def merge (A : Algebra C) (maps : List (StateMap C)) (stateCount : Nat) :
    Except Misuse (StateMap C) := do
  Capacity.reserveTable (← maps.foldlM (fun total m => Word.add total m.sizeHint) 0)
  let all ← maps.mapM (·.entries A)
  return ofEntries all.flatten stateCount

/-- Equality of two optional values, where a missing one is the empty set. -/
def sameValue (A : Algebra C) : Option C → Option C → Except Misuse Bool
  | some a, some b => A.equal a b
  | some a, none => A.isEmpty a
  | none, some b => A.isEmpty b
  | none, none => .ok true

/-- Whether two maps have the same value at a state. -/
def agreeAt (A : Algebra C) (m k : StateMap C) (state : Nat) : Except Misuse Bool := do
  let a ← m.get? A state
  let b ← k.get? A state
  sameValue A a b

/-- Whether two maps have the same value at each of the listed states. -/
def agreeOn (A : Algebra C) (m k : StateMap C) : List Nat → Except Misuse Bool
  | [] => .ok true
  | state :: rest => do if ← agreeAt A m k state then agreeOn A m k rest else return false

/-- Whether two maps have the same value at the state of each of the listed slots. -/
def agreeSlots (A : Algebra C) (m k : StateMap C) (start : Nat) :
    List (Nat × C) → Except Misuse Bool
  | [] => .ok true
  | slot :: rest => do
    if ← agreeAt A m k (← Word.add start slot.1) then agreeSlots A m k start rest else return false

/-- Whether two maps have the same value at each of `count` states from `state` on. -/
def agreeFrom (A : Algebra C) (m k : StateMap C) : (count state : Nat) → Except Misuse Bool
  | 0, _ => .ok true
  | count + 1, state => do
    if ← agreeAt A m k state then agreeFrom A m k count (state + 1) else return false

/-- Whether two maps have the same value at each state that a third may have a value at. The states of
a span are not listed first, since it can be long and the maps differ early; those of slots may not
be machine words beyond the first difference. -/
def agreeWhere (A : Algebra C) (m k : StateMap C) : StateMap C → Except Misuse Bool
  | .dense start values _ => agreeSlots A m k start (slots values)
  | .span range _ _ => agreeFrom A m k range.length range.start
  | other => do agreeOn A m k (← other.states)

/-- Whether two maps have the same value everywhere, where a missing value is the empty set. -/
def equal (A : Algebra C) (m k : StateMap C) : Except Misuse Bool := do
  if ← agreeWhere A m k m then agreeWhere A m k k else return false

/-- The entries as text, in increasing order of the states. -/
def render (A : Algebra C) (m : StateMap C) : Except Misuse String := do
  let entries ← m.entries A
  let body := entries.map fun (state, value) => s!"{state}: " ++ A.text value
  return "\x7b" ++ ", ".intercalate body ++ "\x7d"

/-- A structure's name and fields as text. -/
def structureText (name : String) (fields : List (String × String)) : String :=
  let body := fields.map fun (field, value) => field ++ ": " ++ value
  name ++ " \x7b " ++ ", ".intercalate body ++ " \x7d"

/-- The layout of a map as text. -/
def describe (A : Algebra C) : StateMap C → Except Misuse String
  | .dense start values _ => do
    let span : Span := ⟨start, ← Word.add start values.size⟩
    return structureText "ArrayStateMap" [("span", span.text),
      ("len", toString (slots values).length)]
  | .sparse values _ => .ok (structureText "HashStateMap" [("len", toString values.size)])
  | .span range value n =>
    .ok (structureText "RangeStateMap" [("range", range.text), ("value", A.describe value),
      ("state_count", toString n)])
  | .single state value n =>
    .ok (structureText "SingletonStateMap" [("state", toString state), ("value", A.describe value),
      ("state_count", toString n)])
  | .constant domain value =>
    .ok (structureText "ConstantStateMap" [("domain", domain.text), ("value", A.describe value),
      ("len", toString domain.size)])
  | .empty n => .ok (structureText "EmptyStateMap" [("state_count", toString n)])
  | .interView left right domain => do
    return structureText "AndStateMap" [("left", ← describe A left), ("right", ← describe A right),
      ("len", toString domain.size)]
  | .unionView left right domain => do
    return structureText "OrStateMap" [("left", ← describe A left), ("right", ← describe A right),
      ("len", toString domain.size)]
  | .diffView whole part domain => do
    return structureText "ComplementStateMap" [("full", ← describe A whole),
      ("inner", ← describe A part), ("len", toString domain.size)]

end StateMap

end ColoredCtl

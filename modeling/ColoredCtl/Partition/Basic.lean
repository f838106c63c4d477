import ColoredCtl.State.Accumulator

/-!
Ownership of states.

The states are divided between `count` partitions by a strategy. A `Partition` is that division seen
by one of them, `id`. All partitions of a division agree on the owner of each state.

States are machine words. A partition is only made when the bounds of its ranges and blocks are
machine words too, those beyond the last state included.
-/

namespace ColoredCtl

open Color

/-- How states are assigned to partitions. -/
inductive Strategy where
  /-- Round-robin, state by state. -/
  | hash
  /-- Round-robin, in blocks of `size` states. -/
  | block (size : Nat)
  /-- One contiguous range per partition, all of the same length as far as the states reach. -/
  | uniform
  /-- The listed ranges, one per partition, which follow each other and cover all states. -/
  | interval (ranges : List Span)
deriving DecidableEq, Repr

inductive PartitionError where
  | noPartitions
  | invalidId (id count : Nat)
  | emptyBlock
  | intervalCount (expected found : Nat)
  | intervalTiling (stateCount position : Nat)
deriving DecidableEq, Repr

def PartitionError.message : PartitionError → String
  | .noPartitions => "partition count must be positive"
  | .invalidId id count => s!"partition {id} out of range for {count} partitions"
  | .emptyBlock => "block size must be positive"
  | .intervalCount expected found => s!"expected {expected} intervals, found {found}"
  | .intervalTiling stateCount position =>
    s!"intervals must tile 0..{stateCount}: gap or overlap at state {position}"

/-- One partition of a division of the states. -/
structure Partition where
  strategy : Strategy
  id : Nat
  count : Nat
  stateCount : Nat
deriving DecidableEq, Repr

namespace Partition

/-- The position where the ranges, laid out from `next` on, first fail to follow each other, or
where they end. -/
def tile : (next : Nat) → List Span → Except Nat Nat
  | next, [] => .ok next
  | next, r :: rest => if r.start ≠ next ∨ r.stop < r.start then .error next else tile r.stop rest

/-- Accepts ranges that are as many as the partitions and cover exactly the states. -/
def checkIntervals (ranges : List Span) (count stateCount : Nat) : Except PartitionError Unit :=
  if ranges.length ≠ count then .error (.intervalCount count ranges.length)
  else
    match tile 0 ranges with
    | .error position => .error (.intervalTiling stateCount position)
    | .ok last => if last = stateCount then .ok () else .error (.intervalTiling stateCount last)

/-- The length of the ranges of the uniform strategy. -/
def chunk (p : Partition) : Nat := max 1 ((p.stateCount + p.count - 1) / p.count)

/-- The distance between two blocks of one partition. -/
def stride (p : Partition) (size : Nat) : Nat := size * p.count

/-- The last partition at or before `owner` whose range is not empty. -/
def skipEmpty (ranges : List Span) : (owner : Nat) → Nat
  | 0 => 0
  | owner + 1 =>
    if (ranges[owner + 1]?).any Span.isEmpty then skipEmpty ranges owner else owner + 1

/-- The partition that owns a state. Of the ranges of the interval strategy, that is the last one
that starts at or before the state. -/
def owner (p : Partition) (state : Nat) : Nat :=
  match p.strategy with
  | .hash => state % p.count
  | .block size => state / size % p.count
  | .uniform => min (state / p.chunk) (p.count - 1)
  | .interval ranges => skipEmpty ranges ((ranges.takeWhile (·.start ≤ state)).length - 1)

def isLocal (p : Partition) (state : Nat) : Bool := p.owner state == p.id

/-- The range of the uniform strategy. -/
def uniformSpan (p : Partition) : Span :=
  ⟨min (p.id * p.chunk) p.stateCount, min ((p.id + 1) * p.chunk) p.stateCount⟩

/-- The states of the blocks of a partition. -/
def blockStates (p : Partition) (size : Nat) : List Nat :=
  let starts := (Span.mk (p.id * size) p.stateCount).walk (p.stride size)
  starts.flatMap fun start => (Span.mk start (min (start + size) p.stateCount)).toList

/-- The states of the partition, in increasing order. -/
def localStates (p : Partition) : List Nat :=
  match p.strategy with
  | .hash => (Span.mk p.id p.stateCount).walk p.count
  | .block size => p.blockStates size
  | .uniform => p.uniformSpan.toList
  | .interval ranges => (ranges[p.id]?.getD ⟨0, 0⟩).toList

/-- The states of the partition, as a list that is reserved as a whole where its length is known. -/
def listStates (p : Partition) : Except Misuse (List Nat) := do
  match p.strategy with
  | .hash | .block _ => return p.localStates
  | .uniform => Capacity.reserve Capacity.wordBytes p.uniformSpan.length
  | .interval ranges => Capacity.reserve Capacity.wordBytes (ranges[p.id]?.getD ⟨0, 0⟩).length
  return p.localStates

/-- The smallest range with all states of a list that starts with its least state and ends with its
greatest. -/
def spanOf : List Nat → Span
  | [] => ⟨0, 0⟩
  | first :: rest => ⟨first, rest.getLastD first + 1⟩

/-- The smallest range with all states of the partition. -/
def localSpan (p : Partition) : Span :=
  match p.strategy with
  | .hash | .block _ => spanOf p.localStates
  | .uniform => p.uniformSpan
  | .interval ranges => ranges[p.id]?.getD ⟨0, 0⟩

/-- The set of the states of the partition. -/
def localSet (p : Partition) : Except Misuse StateSet :=
  match p.strategy with
  | .hash | .block _ => StateSet.ofList p.stateCount p.localStates
  | .uniform | .interval _ => StateSet.ofSpan p.stateCount p.localSpan

/-- Whether states fill at least half of the range of the partition. -/
def isFilledBy (p : Partition) (states : List Nat) : Bool :=
  decide (p.localSpan.length ≤ states.length * 2)

/-- Whether the states of the partition fill at least half of their range. -/
def isDense (p : Partition) : Bool :=
  match p.strategy with
  | .hash | .block _ => p.isFilledBy p.localStates
  | .uniform | .interval _ => true

/-- The states below a bound that the partition owns, in front of a list. -/
def ownedBelow (p : Partition) : (bound : Nat) → (acc : List Nat) → List Nat
  | 0, acc => acc
  | state + 1, acc => ownedBelow p state (if p.isLocal state then state :: acc else acc)

/-- The states of the partition, found by asking for the owner of each state of the space. -/
def ownedStates (p : Partition) : List Nat := p.ownedBelow p.stateCount []

theorem ownedBelow_eq (p : Partition) (bound : Nat) (acc : List Nat) :
    p.ownedBelow bound acc = (List.range bound).filter p.isLocal ++ acc := by
  induction bound generalizing acc with
  | zero => rfl
  | succ state ih =>
    rw [ownedBelow, ih, List.range_succ, List.filter_append, List.append_assoc]
    by_cases h : p.isLocal state <;> simp [h]

/-- The owned states are the states of the space that are local. -/
theorem ownedStates_eq (p : Partition) :
    p.ownedStates = (List.range p.stateCount).filter p.isLocal := by
  rw [ownedStates, ownedBelow_eq, List.append_nil]

/-- Accepts a strategy that can divide the states. -/
def checkStrategy (strategy : Strategy) (count stateCount : Nat) :
    Except (Failure PartitionError) Unit :=
  match strategy with
  | .hash | .uniform => .ok ()
  | .block size =>
    if size = 0 then .error (.error .emptyBlock)
    else do let _ ← Word.mul size count
  | .interval ranges => Failure.lift (checkIntervals ranges count stateCount)

/-- The start of the last block of a partition that has one. -/
def lastBlock (p : Partition) (size : Nat) : Nat :=
  p.id * size + (p.stateCount - 1 - p.id * size) / p.stride size * p.stride size

/-- Number of states in the blocks of a partition: all blocks but the last are whole. -/
def blockCount (p : Partition) (size : Nat) : Nat :=
  if p.id * size < p.stateCount then
    (p.stateCount - 1 - p.id * size) / p.stride size * size +
      (min (p.lastBlock size + size) p.stateCount - p.lastBlock size)
  else 0

/-- Accepts a partition whose range, or whose last block, ends at a machine word. Where states are
dealt round-robin they are counted, and twice their number must be a machine word too. -/
def checkBounds (p : Partition) : Except Misuse Unit :=
  match p.strategy with
  | .interval _ => .ok ()
  | .uniform => do let _ ← Word.mul (p.id + 1) p.chunk
  | .hash => do let _ ← Word.mul (p.blockCount 1) 2
  | .block size => do
    if p.id * size < p.stateCount then
      let _ ← Word.add (p.lastBlock size) size
    let _ ← Word.mul (p.blockCount size) 2

/-- The partition, if it can be made. -/
def checked (p : Partition) : Except (Failure PartitionError) Partition := do
  p.checkBounds
  return p

/-- The partition `id` of a division into `count`. -/
def make (strategy : Strategy) (id count stateCount : Nat) :
    Except (Failure PartitionError) Partition := do
  if count = 0 then throw (.error .noPartitions)
  if count ≤ id then throw (.error (.invalidId id count))
  checkStrategy strategy count stateCount
  checked { strategy, id, count, stateCount }

/-- The one partition of an undivided space. -/
def whole (stateCount : Nat) : Partition :=
  { strategy := .uniform, id := 0, count := 1, stateCount }

/-- All partitions of a division, in order. A strategy that cannot divide the states is refused before
the partitions are made one by one. -/
def all (strategy : Strategy) (count stateCount : Nat) :
    Except (Failure PartitionError) (List Partition) := do
  if 0 < count then checkStrategy strategy count stateCount
  (List.range count).mapM fun id => checked { strategy, id, count, stateCount }

theorem make_of_lt (strategy : Strategy) {id count : Nat} (stateCount : Nat) (h : id < count) :
    make strategy id count stateCount = (do
      checkStrategy strategy count stateCount
      checked { strategy, id, count, stateCount }) := by
  have hzero : count ≠ 0 := by omega
  have hle : ¬count ≤ id := by omega
  simp only [make, if_neg hzero, if_neg hle]

/-- Two partial functions that agree on a list do the same on all of it. -/
theorem mapM_congr {ε α β : Type} {f g : α → Except ε β} {xs : List α}
    (h : ∀ x ∈ xs, f x = g x) : xs.mapM f = xs.mapM g := by
  induction xs with
  | nil => rfl
  | cons x xs ih =>
    rw [List.mapM_cons, List.mapM_cons, h x List.mem_cons_self,
      ih fun y hy => h y (List.mem_cons_of_mem _ hy)]

/-- All partitions together are the partitions made one by one. -/
theorem all_eq_mapM (strategy : Strategy) (count stateCount : Nat) :
    all strategy count stateCount =
      (List.range count).mapM fun id => make strategy id count stateCount := by
  cases count with
  | zero => rfl
  | succ count =>
    rw [all, if_pos (Nat.succ_pos count)]
    cases hcheck : checkStrategy strategy (count + 1) stateCount with
    | error cause =>
      have hfirst : make strategy 0 (count + 1) stateCount = .error cause := by
        rw [make_of_lt strategy stateCount (Nat.succ_pos count), hcheck]
        rfl
      rw [List.range_succ_eq_map, List.mapM_cons, List.mapM_cons, hfirst]
      rfl
    | ok _ =>
      refine mapM_congr fun id hid => ?_
      rw [make_of_lt strategy stateCount (List.mem_range.1 hid), hcheck]
      rfl

/-- An empty map for the values of the states that `owner` owns: dense over the partition's own
range when that is worth it, and sparse for all others. -/
def accumulator {C : Type} (A : Color.Algebra C) (p : Partition) (owner : Nat) :
    Except Misuse (Accumulator C) :=
  if owner = p.id && p.isDense then Accumulator.newDense A p.localSpan p.stateCount
  else return .newSparse p.stateCount

end Partition

end ColoredCtl

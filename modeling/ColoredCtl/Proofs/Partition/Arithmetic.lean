import ColoredCtl.Proofs.Partition.Division

/-!
Divisions computed with machine words.

A partition is said by natural numbers, and its bounds are tested when it is made. Here the same is computed
one operation after the other with machine words, and an operation stops the computation when its exact result
is not a machine word, or when it has no result at all. The owner of a state is always found. The range of a
partition and its states are found exactly when the partition can be made; otherwise a sum or a product is too
large, and making the partition fails for the same sum or product.
-/

namespace ColoredCtl

namespace Word

/-- Why an operation has no result, whatever the size of a machine word. -/
inductive Undefined where
  /-- Less than zero is left. -/
  | difference
  /-- The divisor is zero. -/
  | quotient
  /-- The steps of a walk are zero. -/
  | walk
  /-- The list does not have the position. -/
  | item
deriving DecidableEq, Repr

/-- What is computed with machine words. It stops at a sum or a product that is not a machine word, and at
an operation that has no result. -/
abbrev Run (α : Type) := Except (Failure Undefined) α

def sub (a b : Nat) : Run Nat := if b ≤ a then .ok (a - b) else .error (.error .difference)

def div (a b : Nat) : Run Nat := if b = 0 then .error (.error .quotient) else .ok (a / b)

def rem (a b : Nat) : Run Nat := if b = 0 then .error (.error .quotient) else .ok (a % b)

/-- The quotient, rounded up. -/
def divUp (a b : Nat) : Run Nat := do
  let quotient ← div a b
  if 0 < (← rem a b) then add quotient 1 else return quotient

def item {α : Type} (l : List α) (position : Nat) : Run α :=
  match l[position]? with
  | some a => .ok a
  | none => .error (.error .item)

def walk (r : Span) (step : Nat) : Run (List Nat) :=
  if step = 0 then .error (.error .walk) else .ok (r.walk step)

section

variable {a b : Nat}

theorem liftM_add (h : a + b < bound) : (liftM (add a b) : Run Nat) = .ok (a + b) := by
  rw [add, if_pos h]
  rfl

theorem liftM_add_of_le (h : bound ≤ a + b) :
    (liftM (add a b) : Run Nat) = .error (.misuse .sumOverflow) := by
  rw [add, if_neg (Nat.not_lt.2 h)]
  rfl

theorem liftM_mul (h : a * b < bound) : (liftM (mul a b) : Run Nat) = .ok (a * b) := by
  rw [mul, if_pos h]
  rfl

theorem liftM_mul_of_le (h : bound ≤ a * b) :
    (liftM (mul a b) : Run Nat) = .error (.misuse .productOverflow) := by
  rw [mul, if_neg (Nat.not_lt.2 h)]
  rfl

theorem sub_eq (h : b ≤ a) : sub a b = .ok (a - b) := if_pos h

theorem div_eq (hb : 0 < b) : div a b = .ok (a / b) := if_neg (by omega)

theorem rem_eq (hb : 0 < b) : rem a b = .ok (a % b) := if_neg (by omega)

theorem walk_eq {r : Span} {step : Nat} (hstep : 0 < step) : walk r step = .ok (r.walk step) :=
  if_neg (by omega)

theorem item_eq {α : Type} {l : List α} {position : Nat} {x : α} (h : l[position]? = some x) :
    item l position = .ok x := by
  rw [item, h]

/-- Rounding up stays within the machine words: a remainder is left only by a divisor of two or more. -/
theorem divUp_eq (ha : a < bound) (hb : 0 < b) : divUp a b = .ok ((a + b - 1) / b) := by
  have hsplit := Nat.div_add_mod a b
  have hmod := Nat.mod_lt a hb
  have hle : a / b ≤ b * (a / b) := Nat.le_mul_of_pos_left _ hb
  rw [divUp, div_eq hb, rem_eq hb, ok_bind, ok_bind]
  by_cases hpos : 0 < a % b
  · have hup : (a + b - 1) / b = a / b + 1 := by
      rw [Nat.div_eq_iff hb, Nat.add_mul, Nat.mul_comm _ b]
      omega
    rw [if_pos hpos, hup, liftM_add (by omega)]
  · have hup : (a + b - 1) / b = a / b := by
      rw [Nat.div_eq_iff hb, Nat.mul_comm _ b]
      omega
    rw [if_neg hpos, hup]
    rfl

end

end Word

namespace Partition

open Word (Run)

/-- The length of the ranges of the uniform strategy. -/
def chunkInWords (p : Partition) : Run Nat := do return max 1 (← Word.divUp p.stateCount p.count)

/-- The last partition at or before `owner` whose range is not empty. -/
def skipEmptyInWords (ranges : List Span) : (owner : Nat) → Run Nat
  | 0 => .ok 0
  | owner + 1 => do
    if (← Word.item ranges (owner + 1)).isEmpty then skipEmptyInWords ranges owner else return owner + 1

/-- The partition that owns a state. -/
def ownerInWords (p : Partition) (state : Nat) : Run Nat :=
  match p.strategy with
  | .hash => Word.rem state p.count
  | .block size => do Word.rem (← Word.div state size) p.count
  | .uniform => do
    let quotient ← Word.div state (← p.chunkInWords)
    return min quotient (← Word.sub p.count 1)
  | .interval ranges => skipEmptyInWords ranges ((ranges.takeWhile (·.start ≤ state)).length - 1)

/-- The range of the uniform strategy. -/
def uniformSpanInWords (p : Partition) : Run Span := do
  let chunk ← p.chunkInWords
  let start ← Word.mul p.id chunk
  let next ← Word.add p.id 1
  let stop ← Word.mul next chunk
  return ⟨min start p.stateCount, min stop p.stateCount⟩

/-- The states of a block. -/
def blockInWords (p : Partition) (size start : Nat) : Run (List Nat) := do
  let stop ← Word.add start size
  return (Span.mk start (min stop p.stateCount)).toList

/-- The states of the blocks of a partition. -/
def blockStatesInWords (p : Partition) (size : Nat) : Run (List Nat) := do
  let stride ← Word.mul size p.count
  let first ← Word.mul p.id size
  let starts ← Word.walk ⟨first, p.stateCount⟩ stride
  return (← starts.mapM (p.blockInWords size)).flatten

/-- The states of the partition, where ranges have been found before. -/
def localStatesInWords (p : Partition) (span : Span) : Run (List Nat) :=
  match p.strategy with
  | .hash => Word.walk ⟨p.id, p.stateCount⟩ p.count
  | .block size => p.blockStatesInWords size
  | .uniform | .interval _ => return span.toList

/-- The smallest range with all states of an increasing list. -/
def spanOfInWords : List Nat → Run Span
  | [] => return ⟨0, 0⟩
  | first :: rest => do return ⟨first, ← Word.add (rest.getLastD first) 1⟩

/-- What is computed when a partition is made: its range, and whether its states fill at least half of it.
States that are dealt round-robin are listed for the range and counted for the other. -/
def surveyInWords (p : Partition) : Run (Span × Bool) :=
  match p.strategy with
  | .uniform => do return (← p.uniformSpanInWords, true)
  | .interval ranges => do return (← Word.item ranges p.id, true)
  | .hash | .block _ => do
    let span ← spanOfInWords (← p.localStatesInWords ⟨0, 0⟩)
    let twice ← Word.mul (← p.localStatesInWords ⟨0, 0⟩).length 2
    return (span, decide (span.length ≤ twice))

/-- The tests that a strategy passes before anything is computed with it. -/
def Acceptable (strategy : Strategy) (count stateCount : Nat) : Prop :=
  match strategy with
  | .hash | .uniform => True
  | .block size => 0 < size
  | .interval ranges => ranges.length = count ∧ Tiles ranges stateCount

/-- The sums and products that are taken when a partition is made are machine words: the ends of its range or
of its blocks, and twice the number of states that are counted. -/
def InRange (p : Partition) : Prop :=
  match p.strategy with
  | .hash => p.localStates.length * 2 < Word.bound
  | .block size => size * p.count < Word.bound ∧
    (∀ start ∈ (Span.mk (p.id * size) p.stateCount).walk (p.stride size), start + size < Word.bound) ∧
    p.localStates.length * 2 < Word.bound
  | .uniform => (p.id + 1) * p.chunk < Word.bound
  | .interval _ => True

section Owner

variable {p : Partition} {state : Nat}

theorem chunk_pos (p : Partition) : 0 < p.chunk := Nat.lt_of_lt_of_le Nat.zero_lt_one (Nat.le_max_left _ _)

theorem chunkInWords_eq (hcount : 0 < p.count) (hstates : p.stateCount < Word.bound) :
    p.chunkInWords = .ok p.chunk := by
  rw [chunkInWords, Word.divUp_eq hstates hcount]
  rfl

theorem skipEmptyInWords_eq {ranges : List Span} {owner : Nat} (h : owner < ranges.length) :
    skipEmptyInWords ranges owner = .ok (skipEmpty ranges owner) := by
  induction owner with
  | zero => rfl
  | succ owner ih =>
    have hitem := List.getElem?_eq_getElem h
    rw [skipEmptyInWords, skipEmpty, Word.item_eq hitem, hitem, ok_bind, Option.any_some]
    split
    · exact ih (by omega)
    · rfl

/-- The owner of a state is found for all machine words, states of the space or not. -/
theorem ownerInWords_eq (hid : p.id < p.count) (hstates : p.stateCount < Word.bound)
    (hstrategy : Acceptable p.strategy p.count p.stateCount) :
    p.ownerInWords state = .ok (p.owner state) := by
  have hcount : 0 < p.count := by omega
  unfold ownerInWords owner
  unfold Acceptable at hstrategy
  cases hkind : p.strategy with
  | hash => exact Word.rem_eq hcount
  | block size =>
    rw [hkind] at hstrategy
    simp only [Word.div_eq hstrategy, ok_bind, Word.rem_eq hcount]
  | uniform =>
    simp only [chunkInWords_eq hcount hstates, ok_bind, Word.div_eq p.chunk_pos, Word.sub_eq hcount]
    rfl
  | interval ranges =>
    rw [hkind] at hstrategy
    refine skipEmptyInWords_eq ?_
    have hle := (List.takeWhile_sublist (l := ranges) (·.start ≤ state)).length_le
    omega

end Owner

section Blocks

variable {p : Partition} {size : Nat}

/-- A partition with a block has as many blocks as strides fit between the first one and the last state, and
one more. -/
theorem starts_eq (hstride : 0 < p.stride size) (hfirst : p.id * size < p.stateCount) :
    (Span.mk (p.id * size) p.stateCount).walk (p.stride size) =
      (List.range ((p.stateCount - 1 - p.id * size) / p.stride size + 1)).map
        fun i => p.id * size + p.stride size * i := by
  have hnumber : p.stateCount - p.id * size + p.stride size - 1 =
      p.stateCount - 1 - p.id * size + p.stride size := by omega
  rw [Span.walk, Span.length, hnumber, Nat.add_div_right _ hstride]

theorem starts_eq_nil (hstride : 0 < p.stride size) (hfirst : p.stateCount ≤ p.id * size) :
    (Span.mk (p.id * size) p.stateCount).walk (p.stride size) = [] := by
  have hzero : (p.stateCount - p.id * size + p.stride size - 1) / p.stride size = 0 :=
    Nat.div_eq_of_lt (by omega)
  rw [Span.walk, Span.length, hzero]
  rfl

/-- The ends of all blocks are machine words if that of the last one is. -/
theorem starts_fit_iff (hstride : 0 < p.stride size) :
    (∀ start ∈ (Span.mk (p.id * size) p.stateCount).walk (p.stride size), start + size < Word.bound) ↔
      (p.id * size < p.stateCount → p.lastBlock size + size < Word.bound) := by
  by_cases hfirst : p.id * size < p.stateCount
  · have hlast : p.lastBlock size =
        p.id * size + p.stride size * ((p.stateCount - 1 - p.id * size) / p.stride size) := by
      rw [lastBlock, Nat.mul_comm (p.stride size)]
    rw [starts_eq hstride hfirst]
    constructor
    · intro hfit _
      rw [hlast]
      exact hfit _ (List.mem_map.2 ⟨_, List.mem_range.2 (Nat.lt_succ_self _), rfl⟩)
    · intro hfit start hstart
      obtain ⟨i, hi, rfl⟩ := List.mem_map.1 hstart
      have hle : p.stride size * i ≤
          p.stride size * ((p.stateCount - 1 - p.id * size) / p.stride size) :=
        Nat.mul_le_mul_left _ (Nat.le_of_lt_succ (List.mem_range.1 hi))
      have hend := hfit hfirst
      omega
  · simp [starts_eq_nil hstride (Nat.not_lt.1 hfirst), hfirst]

theorem length_blockStates (hsize : 0 < size) (hcount : 0 < p.count) :
    (p.blockStates size).length = p.blockCount size := by
  have hstride : 0 < p.stride size := Nat.mul_pos hsize hcount
  have hwide : size ≤ p.stride size := Nat.le_mul_of_pos_right size hcount
  unfold blockStates blockCount
  by_cases hfirst : p.id * size < p.stateCount
  · rw [starts_eq hstride hfirst, if_pos hfirst, List.flatMap_map, List.range_succ, List.flatMap_append,
      List.length_append, List.flatMap_singleton, Span.length_toList, List.length_flatMap]
    have hlast := Nat.div_mul_le_self (p.stateCount - 1 - p.id * size) (p.stride size)
    -- A block before the last one ends at or before the start of the last one.
    have hwhole : ∀ i ∈ List.range ((p.stateCount - 1 - p.id * size) / p.stride size),
        (Span.mk (p.id * size + p.stride size * i)
          (min (p.id * size + p.stride size * i + size) p.stateCount)).toList.length = size := by
      intro i hi
      have hnext : p.stride size * (i + 1) ≤
          p.stride size * ((p.stateCount - 1 - p.id * size) / p.stride size) :=
        Nat.mul_le_mul_left _ (List.mem_range.1 hi)
      rw [Nat.mul_comm _ (p.stride size)] at hlast
      rw [Nat.mul_succ] at hnext
      simp only [Span.length_toList, Span.length]
      omega
    rw [List.map_congr_left hwhole, List.map_const', List.sum_replicate_nat, List.length_range,
      Span.length, lastBlock, Nat.mul_comm (p.stride size)]
  · rw [starts_eq_nil hstride (Nat.not_lt.1 hfirst), if_neg hfirst]
    rfl

theorem blockInWords_eq {start : Nat} (h : start + size < Word.bound) :
    p.blockInWords size start = .ok (Span.mk start (min (start + size) p.stateCount)).toList := by
  rw [blockInWords, Word.liftM_add h]
  rfl

theorem blockInWords_of_le {start : Nat} (h : Word.bound ≤ start + size) :
    p.blockInWords size start = .error (.misuse .sumOverflow) := by
  rw [blockInWords, Word.liftM_add_of_le h]
  rfl

/-- The blocks are found unless one of them ends beyond the machine words. -/
theorem blockStatesInWords_cases (hsize : 0 < size) (hid : p.id < p.count)
    (hproduct : size * p.count < Word.bound) :
    p.blockStatesInWords size =
      if p.id * size < p.stateCount → p.lastBlock size + size < Word.bound then .ok (p.blockStates size)
      else .error (.misuse .sumOverflow) := by
  have hstride : 0 < p.stride size := Nat.mul_pos hsize (by omega)
  have hfirst : p.id * size < Word.bound := by
    have hle : p.id * size ≤ p.count * size := Nat.mul_le_mul_right _ (by omega)
    rw [Nat.mul_comm p.count] at hle
    omega
  have hwalk : Word.walk ⟨p.id * size, p.stateCount⟩ (size * p.count) =
      .ok ((Span.mk (p.id * size) p.stateCount).walk (p.stride size)) := Word.walk_eq hstride
  simp only [← starts_fit_iff hstride, blockStatesInWords, Word.liftM_mul hproduct, Word.liftM_mul hfirst,
    ok_bind, hwalk]
  split
  · next hfit =>
    have hblocks := mapM_eq_ok (f := p.blockInWords size) fun start hstart =>
      blockInWords_eq (hfit start hstart)
    rw [hblocks, ok_bind, blockStates, List.flatMap_def]
    rfl
  · next hfit =>
    obtain hblocks | ⟨cause, hblocks, rfl⟩ := mapM_eq_ok_or_error (P := (· = .misuse .sumOverflow))
      (f := p.blockInWords size) (l := (Span.mk (p.id * size) p.stateCount).walk (p.stride size))
      fun start _ => (Nat.lt_or_ge (start + size) Word.bound).imp blockInWords_eq
        fun hle => ⟨_, blockInWords_of_le hle, rfl⟩
    · refine absurd (fun start hstart => ?_) hfit
      by_contra hle
      obtain ⟨block, hblock⟩ := of_mapM_eq_ok hblocks start hstart
      rw [blockInWords_of_le (Nat.not_lt.1 hle)] at hblock
      cases hblock
    · rw [hblocks]
      rfl

end Blocks

section Survey

variable {p : Partition} {size : Nat}

theorem spanOfInWords_eq {states : List Nat} {n : Nat} (hlt : ∀ s ∈ states, s < n) (hn : n < Word.bound) :
    spanOfInWords states = .ok (spanOf states) := by
  cases states with
  | nil => rfl
  | cons first rest =>
    have hlast := hlt _ (List.getLastD_mem_cons (l := rest) (a := first))
    rw [spanOfInWords, Word.liftM_add (by omega)]
    rfl

/-- States are dealt to the partitions round-robin. -/
def Deals (p : Partition) : Prop := p.strategy = .hash ∨ ∃ size, p.strategy = .block size

theorem Deals.surveyInWords_eq (hdeals : p.Deals) :
    p.surveyInWords = (do
      let span ← spanOfInWords (← p.localStatesInWords ⟨0, 0⟩)
      let twice ← Word.mul (← p.localStatesInWords ⟨0, 0⟩).length 2
      return (span, decide (span.length ≤ twice))) := by
  obtain hkind | ⟨size, hkind⟩ := hdeals
  · simp only [surveyInWords, hkind]
  · simp only [surveyInWords, hkind]

theorem Deals.localSpan_eq (hdeals : p.Deals) : p.localSpan = spanOf p.localStates := by
  obtain hkind | ⟨size, hkind⟩ := hdeals
  · simp only [localSpan, hkind]
  · simp only [localSpan, hkind]

theorem Deals.isDense_eq (hdeals : p.Deals) :
    p.isDense = decide (p.localSpan.length ≤ p.localStates.length * 2) := by
  obtain hkind | ⟨size, hkind⟩ := hdeals
  · simp only [isDense, hkind, isFilledBy]
  · simp only [isDense, hkind, isFilledBy]

/-- States that are dealt are surveyed by their list, unless twice their number is too large. -/
theorem Deals.surveyInWords_of_listed (hdeals : p.Deals)
    (hlisted : p.localStatesInWords ⟨0, 0⟩ = .ok p.localStates)
    (hlt : ∀ s ∈ p.localStates, s < p.stateCount) (hn : p.stateCount < Word.bound) :
    p.surveyInWords = if p.localStates.length * 2 < Word.bound then .ok (p.localSpan, p.isDense)
      else .error (.misuse .productOverflow) := by
  rw [hdeals.surveyInWords_eq, hlisted, ok_bind, spanOfInWords_eq hlt hn, ok_bind, ok_bind,
    hdeals.isDense_eq, hdeals.localSpan_eq]
  split
  · next htwice =>
    rw [Word.liftM_mul htwice]
    rfl
  · next htwice =>
    rw [Word.liftM_mul_of_le (Nat.not_lt.1 htwice)]
    rfl

theorem Deals.surveyInWords_of_stopped (hdeals : p.Deals) {cause : Failure Word.Undefined}
    (hstopped : p.localStatesInWords ⟨0, 0⟩ = .error cause) : p.surveyInWords = .error cause := by
  rw [hdeals.surveyInWords_eq, hstopped]
  rfl

/-- States dealt one by one are dealt in blocks of one state. -/
theorem blockStates_one (hcount : 0 < p.count) :
    p.blockStates 1 = (Span.mk p.id p.stateCount).walk p.count := by
  have hblock : ∀ start ∈ (Span.mk p.id p.stateCount).walk p.count,
      (Span.mk start (min (start + 1) p.stateCount)).toList = [start] := by
    intro start hstart
    obtain ⟨_, _, hlt⟩ := (Span.mem_walk hcount).1 hstart
    have hstop : min (start + 1) p.stateCount = start + 1 := Nat.min_eq_left hlt
    rw [hstop, Span.toList, Span.length, Nat.add_sub_cancel_left]
    rfl
  rw [blockStates, stride, Nat.mul_one, Nat.one_mul, List.flatMap_congr hblock, List.flatMap_singleton']

/-- A partition of an accepted strategy is made if its bounds are accepted. -/
theorem make_of_checkBounds (hid : p.id < p.count)
    (hok : checkStrategy p.strategy p.count p.stateCount = .ok ()) :
    make p.strategy p.id p.count p.stateCount =
      (liftM p.checkBounds : Except (Failure PartitionError) Unit) >>= fun _ => .ok p := by
  rw [make_of_lt _ _ hid, hok]
  rfl

theorem checkBounds_hash (hkind : p.strategy = .hash) :
    p.checkBounds = if p.blockCount 1 * 2 < Word.bound then .ok () else .error .productOverflow := by
  simp only [checkBounds, hkind, Word.mul]
  split <;> rfl

theorem checkBounds_uniform (hkind : p.strategy = .uniform) :
    p.checkBounds = if (p.id + 1) * p.chunk < Word.bound then .ok () else .error .productOverflow := by
  simp only [checkBounds, hkind, Word.mul]
  split <;> rfl

theorem checkBounds_block (hkind : p.strategy = .block size) :
    p.checkBounds =
      if p.id * size < p.stateCount → p.lastBlock size + size < Word.bound then
        if p.blockCount size * 2 < Word.bound then .ok () else .error .productOverflow
      else .error .sumOverflow := by
  simp only [checkBounds, hkind, Word.mul, Word.add]
  by_cases hfirst : p.id * size < p.stateCount
  · by_cases hlast : p.lastBlock size + size < Word.bound
    · simp only [hfirst, hlast, if_true, true_imp_iff]
      split <;> rfl
    · simp only [hfirst, hlast, if_true, true_imp_iff, if_false]
      rfl
  · simp only [hfirst, false_imp_iff, if_true, if_false]
    split <;> rfl

theorem checkStrategy_block (count stateCount : Nat) (hsize : 0 < size) :
    checkStrategy (.block size) count stateCount =
      if size * count < Word.bound then .ok () else .error (.misuse .productOverflow) := by
  rw [checkStrategy, if_neg (Nat.ne_of_gt hsize), Word.mul]
  split <;> rfl

end Survey

/-- A partition is computed with machine words: it is made, and its range and its states are found. -/
structure ComputedInWords (p : Partition) : Prop where
  make_eq : make p.strategy p.id p.count p.stateCount = .ok p
  survey_eq : p.surveyInWords = .ok (p.localSpan, p.isDense)
  localStates_eq : p.localStatesInWords p.localSpan = .ok p.localStates

/-- A sum or a product stops the computation, and keeps the partition from being made. -/
structure StoppedBy (p : Partition) (cause : Misuse) : Prop where
  overflow : cause = .sumOverflow ∨ cause = .productOverflow
  make_eq : make p.strategy p.id p.count p.stateCount = .error (.misuse cause)
  survey_eq : p.surveyInWords = .error (.misuse cause)

section Cases

variable {p : Partition} {size : Nat}

theorem hash_cases (hkind : p.strategy = .hash) (hid : p.id < p.count) (hstates : p.stateCount < Word.bound) :
    p.InRange ∧ p.ComputedInWords ∨ ¬p.InRange ∧ p.StoppedBy .productOverflow := by
  have hcount : 0 < p.count := by omega
  have hok : checkStrategy p.strategy p.count p.stateCount = .ok () := by
    rw [hkind]
    rfl
  have hlocal : p.localStates = (Span.mk p.id p.stateCount).walk p.count := by
    simp only [localStates, hkind]
  have hlisted (span : Span) : p.localStatesInWords span = .ok p.localStates := by
    simp only [localStatesInWords, hkind, hlocal]
    exact Word.walk_eq hcount
  have hsurvey := Deals.surveyInWords_of_listed (.inl hkind) (hlisted _)
    (fun s hs => ((Proper.mk hid hok).mem_localStates.1 hs).1) hstates
  have hmake := make_of_checkBounds hid hok
  rw [checkBounds_hash hkind, ← length_blockStates Nat.one_pos hcount, blockStates_one hcount,
    ← hlocal] at hmake
  have hrange : p.InRange ↔ p.localStates.length * 2 < Word.bound := by
    simp only [InRange, hkind]
  rw [hrange]
  by_cases htwice : p.localStates.length * 2 < Word.bound
  · rw [if_pos htwice] at hsurvey hmake
    exact .inl ⟨htwice, hmake, hsurvey, hlisted _⟩
  · rw [if_neg htwice] at hsurvey hmake
    exact .inr ⟨htwice, .inr rfl, hmake, hsurvey⟩

theorem uniform_cases (hkind : p.strategy = .uniform) (hid : p.id < p.count) (hcount : p.count < Word.bound)
    (hstates : p.stateCount < Word.bound) :
    p.InRange ∧ p.ComputedInWords ∨ ¬p.InRange ∧ p.StoppedBy .productOverflow := by
  have hok : checkStrategy p.strategy p.count p.stateCount = .ok () := by
    rw [hkind]
    rfl
  have hmake := make_of_checkBounds hid hok
  rw [checkBounds_uniform hkind] at hmake
  have hsurvey : p.surveyInWords = p.uniformSpanInWords >>= fun span => .ok (span, true) := by
    simp only [surveyInWords, hkind]
    rfl
  rw [uniformSpanInWords, chunkInWords_eq (by omega) hstates, ok_bind] at hsurvey
  have hle : p.id * p.chunk ≤ (p.id + 1) * p.chunk := Nat.mul_le_mul_right _ (Nat.le_succ _)
  have hnext : p.id + 1 < Word.bound := by omega
  have hrange : p.InRange ↔ (p.id + 1) * p.chunk < Word.bound := by
    simp only [InRange, hkind]
  rw [hrange]
  by_cases hstop : (p.id + 1) * p.chunk < Word.bound
  · rw [if_pos hstop] at hmake
    rw [Word.liftM_mul (by omega), ok_bind, Word.liftM_add hnext, ok_bind, Word.liftM_mul hstop] at hsurvey
    refine .inl ⟨hstop, hmake, hsurvey.trans ?_, ?_⟩
    · simp only [localSpan, isDense, hkind]
      rfl
    · simp only [localStatesInWords, localStates, localSpan, hkind]
      rfl
  · rw [if_neg hstop] at hmake
    refine .inr ⟨hstop, .inr rfl, hmake, ?_⟩
    rw [hsurvey]
    by_cases hstart : p.id * p.chunk < Word.bound
    · rw [Word.liftM_mul hstart, ok_bind, Word.liftM_add hnext, ok_bind,
        Word.liftM_mul_of_le (Nat.not_lt.1 hstop)]
      rfl
    · rw [Word.liftM_mul_of_le (Nat.not_lt.1 hstart)]
      rfl

theorem interval_computed {ranges : List Span} (hkind : p.strategy = .interval ranges) (hid : p.id < p.count)
    (hlength : ranges.length = p.count) (htiles : Tiles ranges p.stateCount) : p.ComputedInWords := by
  have hcheck := (checkIntervals_eq_ok_iff_tiles (by omega)).2 ⟨hlength, htiles⟩
  have hitem : ranges[p.id]? = some (ranges[p.id]?.getD ⟨0, 0⟩) := by
    rw [List.getElem?_eq_getElem (by omega)]
    rfl
  refine ⟨?_, ?_, ?_⟩
  · rw [hkind, make_interval_eq_ok_iff hid, ← hkind]
    exact ⟨hcheck, rfl⟩
  · simp only [surveyInWords, localSpan, isDense, hkind, Word.item_eq hitem]
    rfl
  · simp only [localStatesInWords, localStates, localSpan, hkind]
    rfl

theorem block_cases (hkind : p.strategy = .block size) (hsize : 0 < size) (hid : p.id < p.count)
    (hstates : p.stateCount < Word.bound) :
    p.InRange ∧ p.ComputedInWords ∨ ¬p.InRange ∧ ∃ cause, p.StoppedBy cause := by
  have hcount : 0 < p.count := by omega
  have hdeals : p.Deals := .inr ⟨size, hkind⟩
  have hlocal : p.localStates = p.blockStates size := by
    simp only [localStates, hkind]
  have hlisted (span : Span) : p.localStatesInWords span = p.blockStatesInWords size := by
    simp only [localStatesInWords, hkind]
  have hrange : p.InRange ↔ size * p.count < Word.bound ∧
      (p.id * size < p.stateCount → p.lastBlock size + size < Word.bound) ∧
      p.localStates.length * 2 < Word.bound := by
    rw [← starts_fit_iff (Nat.mul_pos hsize hcount)]
    simp only [InRange, hkind]
  rw [hrange]
  have hok := checkStrategy_block p.count p.stateCount hsize
  by_cases hproduct : size * p.count < Word.bound
  · rw [if_pos hproduct, ← hkind] at hok
    have hmake := make_of_checkBounds hid hok
    rw [checkBounds_block hkind, ← length_blockStates hsize hcount, ← hlocal] at hmake
    have hblocks := blockStatesInWords_cases hsize hid hproduct
    by_cases hlast : p.id * size < p.stateCount → p.lastBlock size + size < Word.bound
    · rw [if_pos hlast] at hmake hblocks
      have hfound (span : Span) : p.localStatesInWords span = .ok p.localStates := by
        rw [hlisted, hblocks, hlocal]
      have hsurvey := hdeals.surveyInWords_of_listed (hfound _)
        (fun s hs => ((Proper.mk hid hok).mem_localStates.1 hs).1) hstates
      by_cases htwice : p.localStates.length * 2 < Word.bound
      · rw [if_pos htwice] at hmake hsurvey
        exact .inl ⟨⟨hproduct, hlast, htwice⟩, hmake, hsurvey, hfound _⟩
      · rw [if_neg htwice] at hmake hsurvey
        exact .inr ⟨fun h => htwice h.2.2, _, .inr rfl, hmake, hsurvey⟩
    · rw [if_neg hlast] at hmake hblocks
      exact .inr ⟨fun h => hlast h.2.1, _, .inl rfl, hmake,
        hdeals.surveyInWords_of_stopped ((hlisted _).trans hblocks)⟩
  · rw [if_neg hproduct, ← hkind] at hok
    have hmake : make p.strategy p.id p.count p.stateCount = .error (.misuse .productOverflow) := by
      rw [make_of_lt _ _ hid, hok]
      rfl
    have hblocks : p.blockStatesInWords size = .error (.misuse .productOverflow) := by
      rw [blockStatesInWords, Word.liftM_mul_of_le (Nat.not_lt.1 hproduct)]
      rfl
    exact .inr ⟨fun h => hproduct h.1, _, .inr rfl, hmake,
      hdeals.surveyInWords_of_stopped ((hlisted _).trans hblocks)⟩

/-- A partition in range is computed with machine words, and one that is not is stopped by a sum or a
product. -/
theorem inRange_cases (hcount : p.count < Word.bound) (hstates : p.stateCount < Word.bound)
    (hid : p.id < p.count) (hstrategy : Acceptable p.strategy p.count p.stateCount) :
    p.InRange ∧ p.ComputedInWords ∨ ¬p.InRange ∧ ∃ cause, p.StoppedBy cause := by
  unfold Acceptable at hstrategy
  cases hkind : p.strategy with
  | hash => exact (hash_cases hkind hid hstates).imp_right fun h => ⟨h.1, _, h.2⟩
  | block size =>
    rw [hkind] at hstrategy
    exact block_cases hkind hstrategy hid hstates
  | uniform => exact (uniform_cases hkind hid hcount hstates).imp_right fun h => ⟨h.1, _, h.2⟩
  | interval ranges =>
    rw [hkind] at hstrategy
    refine .inl ⟨?_, interval_computed hkind hid hstrategy.1 hstrategy.2⟩
    simp only [InRange, hkind]

/-- A partition that passes the tests is made, and its range and its states are found with machine words,
exactly if it is in range. Otherwise a sum or a product is too large. The owner of a state is found in every
case. -/
theorem computedInWords_iff_inRange (hcount : p.count < Word.bound) (hstates : p.stateCount < Word.bound)
    (hid : p.id < p.count) (hstrategy : Acceptable p.strategy p.count p.stateCount) :
    (p.ComputedInWords ↔ p.InRange) ∧ (¬p.InRange → ∃ cause, p.StoppedBy cause) ∧
      ∀ state, p.ownerInWords state = .ok (p.owner state) := by
  refine ⟨?_, ?_, fun state => ownerInWords_eq hid hstates hstrategy⟩
  · obtain ⟨hrange, hcomputed⟩ | ⟨hrange, cause, hstopped⟩ := inRange_cases hcount hstates hid hstrategy
    · exact iff_of_true hcomputed hrange
    · refine iff_of_false (fun hcomputed => ?_) hrange
      cases hcomputed.make_eq.symm.trans hstopped.make_eq
  · intro hrange
    obtain ⟨hin, _⟩ | ⟨_, hstopped⟩ := inRange_cases hcount hstates hid hstrategy
    · exact absurd hin hrange
    · exact hstopped

/-- A block of half of the machine words, for the only partition of a few states: it ends within the machine
words. -/
theorem computedInWords_iff_inRange_oneBlock :
    Acceptable (.block 0x8000000000000000) 1 6 ∧
      InRange ⟨.block 0x8000000000000000, 0, 1, 6⟩ ∧ ComputedInWords ⟨.block 0x8000000000000000, 0, 1, 6⟩ ∧
      ownerInWords ⟨.block 0x8000000000000000, 0, 1, 6⟩ 0x8000000000000000 = .ok 0 := by
  have haccepted : Acceptable (.block 0x8000000000000000) 1 6 := by
    change 0 < 0x8000000000000000
    omega
  have hrange : InRange ⟨.block 0x8000000000000000, 0, 1, 6⟩ := ⟨by decide, by decide, by decide⟩
  obtain ⟨hcomputed, _, howner⟩ := computedInWords_iff_inRange (p := ⟨.block 0x8000000000000000, 0, 1, 6⟩)
    (by decide) (by decide) (by decide) haccepted
  exact ⟨haccepted, hrange, hcomputed.2 hrange, howner _⟩

/-- The same block for two partitions: their blocks are all of the machine words apart, which is one too many.
The owners of the states are found all the same. -/
theorem stoppedBy_stride : Acceptable (.block 0x8000000000000000) 2 5 ∧
    StoppedBy ⟨.block 0x8000000000000000, 0, 2, 5⟩ .productOverflow ∧
    ∀ state < 5, ownerInWords ⟨.block 0x8000000000000000, 0, 2, 5⟩ state = .ok 0 := by
  have haccepted : Acceptable (.block 0x8000000000000000) 2 5 := by
    change 0 < 0x8000000000000000
    omega
  exact ⟨haccepted, ⟨.inr rfl, rfl, rfl⟩, by decide⟩

end Cases

end Partition

end ColoredCtl

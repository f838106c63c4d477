import ColoredCtl.Proofs.State.Growth

namespace ColoredCtl

namespace Span

/-- A walk visits the states of its span that are a number of steps away from the start. -/
theorem mem_walk {r : Span} {step state : Nat} (hstep : 0 < step) :
    state ∈ r.walk step ↔ ∃ i, r.start + step * i = state ∧ state < r.stop := by
  have hlast (i : Nat) : i < (r.length + step - 1) / step ↔ step * i < r.length := by
    rw [Nat.lt_iff_add_one_le, Nat.le_div_iff_mul_le hstep, Nat.add_mul, Nat.one_mul, Nat.mul_comm i]
    omega
  simp only [walk, List.mem_map, List.mem_range, hlast]
  unfold length
  constructor
  · rintro ⟨i, hi, rfl⟩
    exact ⟨i, rfl, by omega⟩
  · rintro ⟨i, rfl, hlt⟩
    exact ⟨i, by omega, rfl⟩

theorem pairwise_walk {r : Span} {step : Nat} (hstep : 0 < step) :
    (r.walk step).Pairwise (· < ·) := by
  rw [walk, List.pairwise_map]
  apply List.pairwise_lt_range.imp
  intro i j hlt
  have := Nat.mul_lt_mul_of_pos_left hlt hstep
  omega

theorem pairwise_toList (r : Span) : r.toList.Pairwise (· < ·) := List.pairwise_lt_range'

end Span

namespace Partition

/-- The partitions of a division that can be made. -/
structure Proper (p : Partition) : Prop where
  id_lt : p.id < p.count
  strategy_ok : checkStrategy p.strategy p.count p.stateCount = .ok ()

section Blocks

/-- The states of the blocks of a partition are those in a block whose number, counted round-robin,
is that of the partition. -/
theorem mem_blockStates {p : Partition} {size state : Nat} (hsize : 0 < size) (hid : p.id < p.count) :
    state ∈ p.blockStates size ↔ state < p.stateCount ∧ state / size % p.count = p.id := by
  have hstride : 0 < p.stride size := Nat.mul_pos hsize (by omega)
  simp only [blockStates, List.mem_flatMap, Span.mem_toList, Span.mem_walk hstride]
  constructor
  · rintro ⟨start, ⟨i, rfl, _⟩, hlow, hhigh⟩
    -- The block is number `id + count * i`, and the state lies in it.
    have hstart : p.id * size + p.stride size * i = size * (p.id + p.count * i) := by
      rw [stride, Nat.mul_add, Nat.mul_comm p.id, Nat.mul_assoc]
    rw [hstart] at hlow hhigh
    have hdiv : state / size = p.id + p.count * i := by
      rw [Nat.div_eq_iff hsize, Nat.mul_comm _ size]
      omega
    rw [hdiv, Nat.add_mul_mod_self_left, Nat.mod_eq_of_lt hid]
    exact ⟨by omega, rfl⟩
  · rintro ⟨hlt, howner⟩
    have hblock : size * (state / size) ≤ state := Nat.mul_div_le state size
    have hnext : state < size * (state / size) + size := Nat.lt_mul_div_succ state hsize
    have hcount : p.count * (state / size / p.count) + p.id = state / size := by
      rw [← howner]
      exact Nat.div_add_mod _ _
    have hstart : p.id * size + p.stride size * (state / size / p.count) = size * (state / size) := by
      calc p.id * size + p.stride size * (state / size / p.count)
          = size * (p.count * (state / size / p.count) + p.id) := by
            rw [stride, Nat.mul_add, Nat.mul_comm p.id, Nat.mul_assoc, Nat.add_comm]
        _ = size * (state / size) := by rw [hcount]
    exact ⟨_, ⟨state / size / p.count, hstart, by omega⟩, hblock, by omega⟩

theorem pairwise_blockStates {p : Partition} {size : Nat} (hid : p.id < p.count) :
    (p.blockStates size).Pairwise (· < ·) := by
  have hcount : 0 < p.count := by omega
  have hwide : size ≤ p.stride size := Nat.le_mul_of_pos_right size hcount
  rw [blockStates, List.pairwise_flatMap]
  refine ⟨fun start _ => Span.pairwise_toList _, ?_⟩
  rw [Span.walk, List.pairwise_map]
  apply List.pairwise_lt_range.imp
  intro i j hlt x hx y hy
  rw [Span.mem_toList] at hx hy
  have hstep : p.stride size * (i + 1) ≤ p.stride size * j := Nat.mul_le_mul_left _ hlt
  rw [Nat.mul_succ] at hstep
  simp only at hx hy
  omega

end Blocks

section Intervals

theorem tile_cons_eq_ok_iff {r : Span} {rest : List Span} {next last : Nat} :
    tile next (r :: rest) = .ok last ↔
      r.start = next ∧ r.start ≤ r.stop ∧ tile r.stop rest = .ok last := by
  by_cases hr : r.start ≠ next ∨ r.stop < r.start
  · rw [tile, if_pos hr]
    constructor
    · rintro ⟨⟩
    · rintro ⟨hstart, hle, _⟩
      omega
  · rw [tile, if_neg hr]
    have hstart : r.start = next := by omega
    have hle : r.start ≤ r.stop := by omega
    exact ⟨fun h => ⟨hstart, hle, h⟩, fun h => h.2.2⟩

/-- Ranges that follow each other, from `next` to `last`: each starts at or after the end of those
before it. -/
theorem tile_bounds {ranges : List Span} {next last : Nat} (h : tile next ranges = .ok last) :
    next ≤ last ∧ ∀ (i : Nat) (r : Span), ranges[i]? = some r →
      next ≤ r.start ∧ r.start ≤ r.stop ∧ r.stop ≤ last ∧
        ∀ (j : Nat) (q : Span), i < j → ranges[j]? = some q → r.stop ≤ q.start := by
  induction ranges generalizing next with
  | nil =>
    cases h
    simp
  | cons first rest ih =>
    obtain ⟨hfirst, hle, htail⟩ := tile_cons_eq_ok_iff.1 h
    obtain ⟨hlast, hrest⟩ := ih htail
    refine ⟨by omega, ?_⟩
    intro i r hr
    cases i with
    | zero =>
      cases hr
      refine ⟨by omega, hle, hlast, ?_⟩
      intro j q hj hq
      cases j with
      | zero => omega
      | succ j => exact (hrest j q hq).1
    | succ i =>
      obtain ⟨hstart, hstop, hlast, hafter⟩ := hrest i r hr
      refine ⟨by omega, hstop, hlast, ?_⟩
      intro j q hj hq
      cases j with
      | zero => omega
      | succ j => exact hafter j q (by omega) hq

/-- Of ranges that follow each other, the last one that starts at or before a state contains it. -/
theorem tile_find {ranges : List Span} {next last state : Nat} (h : tile next ranges = .ok last)
    (hlow : next ≤ state) (hhigh : state < last) :
    ∃ r, ranges[(ranges.takeWhile (·.start ≤ state)).length - 1]? = some r ∧
      r.start ≤ state ∧ state < r.stop := by
  induction ranges generalizing next with
  | nil =>
    cases h
    omega
  | cons first rest ih =>
    obtain ⟨hfirst, _, htail⟩ := tile_cons_eq_ok_iff.1 h
    have hstart : first.start ≤ state := by omega
    rw [List.takeWhile_cons_of_pos (by simpa using hstart), List.length_cons, Nat.add_sub_cancel]
    by_cases hin : state < first.stop
    · -- No later range starts early enough, so the first one is taken.
      have hnone : rest.takeWhile (·.start ≤ state) = [] := by
        cases rest with
        | nil => rfl
        | cons second rest =>
          obtain ⟨hsecond, _⟩ := (tile_bounds htail).2 0 second rfl
          rw [List.takeWhile_cons_of_neg]
          simpa using Nat.lt_of_lt_of_le hin hsecond
      exact ⟨first, by simp [hnone], hstart, hin⟩
    · obtain ⟨r, hr, hcontains⟩ := ih htail (by omega)
      refine ⟨r, ?_, hcontains⟩
      cases hlen : (rest.takeWhile (·.start ≤ state)).length with
      | zero =>
        -- The range after the first starts where the first one stops.
        cases rest with
        | nil =>
          cases htail
          omega
        | cons second rest =>
          have hsecond : second.start ≤ state := by
            have := (tile_cons_eq_ok_iff.1 htail).1
            omega
          rw [List.takeWhile_cons_of_pos (by simpa using hsecond)] at hlen
          cases hlen
      | succ k =>
        rw [hlen, Nat.add_sub_cancel] at hr
        simpa using hr

/-- The owner of a state under the interval strategy is the partition whose range contains it. -/
theorem interval_owner_iff {ranges : List Span} {stateCount count id state : Nat}
    (h : tile 0 ranges = .ok stateCount) (hstate : state < stateCount) :
    owner ⟨.interval ranges, id, count, stateCount⟩ state = id ↔
      ∃ r, ranges[id]? = some r ∧ r.start ≤ state ∧ state < r.stop := by
  obtain ⟨r, hr, hlow, hhigh⟩ := tile_find h (Nat.zero_le _) hstate
  have howner : owner ⟨.interval ranges, id, count, stateCount⟩ state =
      (ranges.takeWhile (·.start ≤ state)).length - 1 := by
    change skipEmpty ranges ((ranges.takeWhile (·.start ≤ state)).length - 1) = _
    cases hindex : (ranges.takeWhile (·.start ≤ state)).length - 1 with
    | zero => rfl
    | succ k =>
      rw [hindex] at hr
      have hfull : ¬(ranges[k + 1]?).any Span.isEmpty = true := by
        rw [hr]
        simp only [Option.any_some, Span.isEmpty, decide_eq_true_eq]
        omega
      rw [skipEmpty, if_neg hfull]
  rw [howner]
  constructor
  · rintro rfl
    exact ⟨r, hr, hlow, hhigh⟩
  · rintro ⟨q, hq, hqlow, hqhigh⟩
    obtain ⟨_, hbounds⟩ := tile_bounds h
    rcases Nat.lt_trichotomy ((ranges.takeWhile (·.start ≤ state)).length - 1) id with
      hlt | heq | hgt
    · have := (hbounds _ r hr).2.2.2 id q hlt hq
      omega
    · exact heq
    · have := (hbounds id q hq).2.2.2 _ r hgt hr
      omega

end Intervals

section Local

theorem checkIntervals_eq_ok_iff {ranges : List Span} {count stateCount : Nat} :
    checkIntervals ranges count stateCount = .ok () ↔
      ranges.length = count ∧ tile 0 ranges = .ok stateCount := by
  unfold checkIntervals
  by_cases hlength : ranges.length = count
  · rw [if_neg (not_not.2 hlength)]
    cases htile : tile 0 ranges with
    | error position => simp
    | ok last =>
      by_cases hlast : last = stateCount
      · simp [hlast, hlength]
      · simp [hlast]
  · simp [hlength]

theorem Proper.block_pos {p : Partition} (hp : p.Proper) {size : Nat}
    (hstrategy : p.strategy = .block size) : 0 < size := by
  have hok := hp.strategy_ok
  rw [hstrategy, checkStrategy] at hok
  split at hok
  · cases hok
  · omega

theorem Proper.interval_ok {p : Partition} (hp : p.Proper) {ranges : List Span}
    (hstrategy : p.strategy = .interval ranges) :
    ranges.length = p.count ∧ tile 0 ranges = .ok p.stateCount := by
  have hok := hp.strategy_ok
  rw [hstrategy, checkStrategy] at hok
  cases hcheck : checkIntervals ranges p.count p.stateCount with
  | error cause =>
    rw [hcheck] at hok
    cases hok
  | ok _ => exact checkIntervals_eq_ok_iff.1 hcheck

theorem stateCount_le_mul_chunk {p : Partition} (hcount : 0 < p.count) :
    p.stateCount ≤ p.count * p.chunk := by
  have hdiv := Nat.div_add_mod (p.stateCount + p.count - 1) p.count
  have hmod := Nat.mod_lt (p.stateCount + p.count - 1) hcount
  have hle : p.count * ((p.stateCount + p.count - 1) / p.count) ≤ p.count * p.chunk :=
    Nat.mul_le_mul_left _ (Nat.le_max_right _ _)
  omega

theorem mem_uniformSpan {p : Partition} {state : Nat} (hid : p.id < p.count) :
    state ∈ p.uniformSpan.toList ↔
      state < p.stateCount ∧ min (state / p.chunk) (p.count - 1) = p.id := by
  have hchunk : 0 < p.chunk := Nat.lt_of_lt_of_le Nat.zero_lt_one (Nat.le_max_left _ _)
  have hwhole := stateCount_le_mul_chunk (p := p) (by omega)
  have hquotient (hlt : state < p.stateCount) : state / p.chunk < p.count := by
    rw [Nat.div_lt_iff_lt_mul hchunk]
    omega
  have hrange : state / p.chunk = p.id ↔ p.id * p.chunk ≤ state ∧ state < (p.id + 1) * p.chunk := by
    rw [Nat.div_eq_iff hchunk, Nat.succ_mul]
    omega
  rw [Span.mem_toList, uniformSpan]
  simp only
  constructor
  · rintro ⟨hlow, hhigh⟩
    have hlt : state < p.stateCount := by omega
    have heq := hrange.2 ⟨by omega, by omega⟩
    exact ⟨hlt, by omega⟩
  · rintro ⟨hlt, howner⟩
    have heq : state / p.chunk = p.id := by
      have := hquotient hlt
      omega
    have := hrange.1 heq
    omega

/-- The states of a partition are the states of the space that it owns. -/
theorem Proper.mem_localStates {p : Partition} (hp : p.Proper) {state : Nat} :
    state ∈ p.localStates ↔ state < p.stateCount ∧ p.owner state = p.id := by
  have hid := hp.id_lt
  have hcount : 0 < p.count := by omega
  cases hstrategy : p.strategy with
  | hash =>
    simp only [localStates, owner, hstrategy, Span.mem_walk hcount]
    constructor
    · rintro ⟨i, rfl, hlt⟩
      exact ⟨hlt, by rw [Nat.add_mul_mod_self_left, Nat.mod_eq_of_lt hid]⟩
    · rintro ⟨hlt, howner⟩
      exact ⟨state / p.count, by rw [← howner]; exact Nat.mod_add_div _ _, hlt⟩
  | block size =>
    simp only [localStates, owner, hstrategy]
    exact mem_blockStates (hp.block_pos hstrategy) hid
  | uniform =>
    simp only [localStates, owner, hstrategy]
    exact mem_uniformSpan hid
  | interval ranges =>
    obtain ⟨hlength, htile⟩ := hp.interval_ok hstrategy
    have howner : owner p state = owner ⟨.interval ranges, p.id, p.count, p.stateCount⟩ state := by
      rw [← hstrategy]
    have hget : ranges[p.id]? = some (ranges[p.id]?.getD ⟨0, 0⟩) := by
      rw [List.getElem?_eq_getElem (by omega)]
      rfl
    simp only [localStates, hstrategy, Span.mem_toList, howner]
    constructor
    · intro hrange
      have hlt : state < p.stateCount := by
        have := ((tile_bounds htile).2 p.id _ hget).2.2.1
        omega
      exact ⟨hlt, (interval_owner_iff htile hlt).2 ⟨_, hget, hrange⟩⟩
    · rintro ⟨hlt, hid⟩
      obtain ⟨r, hr, hrange⟩ := (interval_owner_iff htile hlt).1 hid
      rw [hr]
      exact hrange

theorem Proper.pairwise_localStates {p : Partition} (hp : p.Proper) :
    p.localStates.Pairwise (· < ·) := by
  have hid := hp.id_lt
  unfold localStates
  split
  · exact Span.pairwise_walk (by omega)
  · exact pairwise_blockStates hid
  · exact Span.pairwise_toList _
  · exact Span.pairwise_toList _

/-- What a strategy lists is what is found by asking for the owner of each state. -/
theorem Proper.localStates_eq {p : Partition} (hp : p.Proper) : p.localStates = p.ownedStates := by
  rw [ownedStates_eq]
  apply eq_range_filter hp.pairwise_localStates
  intro state
  rw [hp.mem_localStates, isLocal, beq_iff_eq]

/-- Every state of the space is owned by one of the partitions. -/
theorem Proper.owner_lt {p : Partition} (hp : p.Proper) {state : Nat} (hstate : state < p.stateCount) :
    p.owner state < p.count := by
  have hcount : 0 < p.count := Nat.lt_of_le_of_lt (Nat.zero_le _) hp.id_lt
  cases hstrategy : p.strategy with
  | hash =>
    simp only [owner, hstrategy]
    exact Nat.mod_lt _ hcount
  | block size =>
    simp only [owner, hstrategy]
    exact Nat.mod_lt _ hcount
  | uniform =>
    simp only [owner, hstrategy]
    omega
  | interval ranges =>
    obtain ⟨hlength, htile⟩ := hp.interval_ok hstrategy
    -- Seen by the owner itself, the owner's range contains the state, so there is such a range.
    have hself : owner ⟨.interval ranges, p.owner state, p.count, p.stateCount⟩ state =
        p.owner state := by
      simp only [owner, hstrategy]
    obtain ⟨r, hr, _⟩ := (interval_owner_iff htile hstate).1 hself
    obtain ⟨hlt, _⟩ := List.getElem?_eq_some_iff.1 hr
    omega

theorem le_getLastD {first x : Nat} {rest : List Nat} (h : (first :: rest).Pairwise (· < ·))
    (hx : x ∈ first :: rest) : x ≤ rest.getLastD first := by
  induction rest generalizing first x with
  | nil =>
    rw [List.mem_singleton] at hx
    exact Nat.le_of_eq hx
  | cons second rest ih =>
    rw [List.pairwise_cons] at h
    rw [List.getLastD_cons]
    rcases List.mem_cons.1 hx with rfl | hx
    · have hlt := h.1 second List.mem_cons_self
      have := ih h.2 List.mem_cons_self
      omega
    · exact ih h.2 hx

theorem spanOf_bounds {states : List Nat} (h : states.Pairwise (· < ·)) {n : Nat}
    (hlt : ∀ x ∈ states, x < n) :
    (∀ x ∈ states, (spanOf states).contains x = true) ∧
      ((spanOf states).start < (spanOf states).stop → (spanOf states).stop ≤ n) := by
  cases states with
  | nil => simp [spanOf]
  | cons first rest =>
    refine ⟨?_, fun _ => hlt _ List.getLastD_mem_cons⟩
    intro x hx
    have hlast := le_getLastD h hx
    have hfirst : first ≤ x := by
      rcases List.mem_cons.1 hx with rfl | hx
      · exact Nat.le_refl _
      · exact Nat.le_of_lt ((List.pairwise_cons.1 h).1 x hx)
    exact (Span.contains_iff _ x).2 ⟨hfirst, Nat.lt_succ_of_le hlast⟩

/-- The range of a partition holds its states, and is a range of the space. -/
theorem Proper.localSpan_spec {p : Partition} (hp : p.Proper) :
    (∀ state ∈ p.localStates, p.localSpan.contains state = true) ∧
      (p.localSpan.start < p.localSpan.stop → p.localSpan.stop ≤ p.stateCount) := by
  have hlisted := spanOf_bounds hp.pairwise_localStates fun state hstate =>
    (hp.mem_localStates.1 hstate).1
  cases hstrategy : p.strategy with
  | hash | block size => simpa only [localSpan, hstrategy] using hlisted
  | uniform =>
    simp only [localStates, localSpan, hstrategy, Span.mem_toList, Span.contains_iff]
    exact ⟨fun _ h => h, fun _ => Nat.min_le_right _ _⟩
  | interval ranges =>
    obtain ⟨hlength, htile⟩ := hp.interval_ok hstrategy
    have hget : ranges[p.id]? = some (ranges[p.id]?.getD ⟨0, 0⟩) := by
      rw [List.getElem?_eq_getElem (by have := hp.id_lt; omega)]
      rfl
    simp only [localStates, localSpan, hstrategy, Span.mem_toList, Span.contains_iff]
    exact ⟨fun _ h => h, fun _ => ((tile_bounds htile).2 p.id _ hget).2.2.1⟩

theorem Proper.localSet_spec {p : Partition} (hp : p.Proper) :
    ∃ s, p.localSet = .ok s ∧ s.stateCount = p.stateCount ∧
      ∀ state, s.contains state = true ↔ state < p.stateCount ∧ p.owner state = p.id := by
  have hlisted := StateSet.ofList_spec (n := p.stateCount) (l := p.localStates)
    fun state hstate => (hp.mem_localStates.1 hstate).1
  have hspan := StateSet.ofSpan_spec hp.localSpan_spec.2
  simp only [← hp.mem_localStates]
  cases hstrategy : p.strategy with
  | hash | block size => simpa only [localSet, hstrategy] using hlisted
  | uniform | interval ranges =>
    obtain ⟨s, hs, hcount, hcontains⟩ := hspan
    refine ⟨s, by simpa only [localSet, hstrategy] using hs, hcount, ?_⟩
    simp only [hcontains, localStates, localSpan, hstrategy, Span.mem_toList, Span.contains_iff,
      implies_true]

/-- Whether the slots of a map over the range of the partition can be reserved, where it has such a map. -/
def HasRoom (p : Partition) (domain : Color.Domain) : Prop :=
  p.isDense = true → p.localSpan.length ≤ Capacity.most domain.slotBytes

theorem Proper.hasRoom {p : Partition} (hp : p.Proper) (hn : p.stateCount ≤ Capacity.stateLimit)
    (domain : Color.Domain) : p.HasRoom domain := by
  intro _
  have hlength : p.localSpan.length ≤ Capacity.stateLimit := by
    have hstop := hp.localSpan_spec.2
    unfold Span.length
    by_cases hlt : p.localSpan.start < p.localSpan.stop
    · have := hstop hlt
      omega
    · omega
  refine Capacity.reserve_eq_ok_iff.1 (Capacity.reserve_of_le_stateLimit ?_ ?_ hlength)
  · cases domain <;> simp [Color.Domain.slotBytes]
  · cases domain <;> simp [Color.Domain.slotBytes, Capacity.rowBytes]

open Color in
/-- A partition can make an empty map that takes values at all of its states. -/
theorem Proper.accumulator_spec {p : Partition} (hp : p.Proper) {C : Type} {A : Algebra C}
    (hroom : p.HasRoom A.domain) (R : Reading A) :
    ∃ acc, p.accumulator A p.id = .ok (acc : Accumulator C) ∧ acc.Fits R p.stateCount ∧
      (∀ state < p.stateCount, p.owner state = p.id → acc.range.contains state = true) ∧
      ∀ state, acc.colorsAt R state = ∅ := by
  obtain ⟨hinside, hstop⟩ := hp.localSpan_spec
  cases hdense : p.isDense with
  | false =>
    refine ⟨.newSparse p.stateCount, ?_, Accumulator.newSparse_fits, ?_, by simp⟩
    · simp [accumulator, hdense, pure, Except.pure]
    · intro state hstate _
      exact (Span.contains_iff _ _).2 ⟨Nat.zero_le _, hstate⟩
  | true =>
    obtain ⟨acc, hacc, hfits, hrange, hempty⟩ :=
      Accumulator.newDense_spec (R := R) (Capacity.reserve_eq_ok_iff.2 (hroom hdense)) hstop
    refine ⟨acc, by simpa [accumulator, hdense] using hacc, hfits, ?_, hempty⟩
    intro state hstate howner
    rw [hrange]
    exact hinside state (hp.mem_localStates.2 ⟨hstate, howner⟩)

end Local

/-- The partition with a given number in a division. -/
def nth (strategy : Strategy) (count stateCount id : Nat) : Partition :=
  { strategy, id, count, stateCount }

/-- All partitions of a division are proper, and stand in order. -/
theorem all_eq_ok {strategy : Strategy} {count stateCount : Nat} {partitions : List Partition}
    (h : all strategy count stateCount = .ok partitions) :
    partitions = (List.range count).map (nth strategy count stateCount) ∧
      ∀ id < count, (nth strategy count stateCount id).Proper := by
  unfold all at h
  by_cases hcount : 0 < count
  · rw [if_pos hcount] at h
    obtain ⟨_, hcheck, h⟩ := bind_eq_ok_iff.1 h
    refine ⟨?_, fun id hid => ⟨hid, hcheck⟩⟩
    have hmake (ids : List Nat) (made : List Partition)
        (hmade : ids.mapM (fun id => checked (nth strategy count stateCount id)) = .ok made) :
        made = ids.map (nth strategy count stateCount) := by
      induction ids generalizing made with
      | nil =>
        cases hmade
        rfl
      | cons id ids ih =>
        rw [List.mapM_cons] at hmade
        obtain ⟨first, hfirst, hmade⟩ := bind_eq_ok_iff.1 hmade
        obtain ⟨rest, hrest, hmade⟩ := bind_eq_ok_iff.1 hmade
        obtain ⟨_, _, hfirst⟩ := bind_eq_ok_iff.1 hfirst
        cases hfirst
        cases hmade
        rw [ih rest hrest, List.map_cons]
    exact hmake _ _ h
  · obtain rfl : count = 0 := by omega
    rw [if_neg (Nat.lt_irrefl 0)] at h
    cases h
    exact ⟨rfl, fun id hid => absurd hid (Nat.not_lt_zero id)⟩

/-- The undivided space is one partition. -/
theorem all_uniform_one {n : Nat} (hn : n ≤ Capacity.stateLimit) :
    all .uniform 1 n = .ok [nth .uniform 1 n 0] := by
  have hmul : Word.mul (0 + 1) (nth .uniform 1 n 0).chunk = .ok (max 1 n) := by
    have hchunk : (nth .uniform 1 n 0).chunk = max 1 n := by simp [chunk, nth]
    have hlimit : 0 < Capacity.stateLimit ∧ Capacity.stateLimit < Word.bound := by decide
    rw [hchunk, Word.mul_eq_ok_iff]
    omega
  have hchecked : checked (nth .uniform 1 n 0) = .ok (nth .uniform 1 n 0) := by
    have hbounds : (nth .uniform 1 n 0).checkBounds = .ok () := bind_eq_ok_iff.2 ⟨_, hmul, rfl⟩
    rw [checked, hbounds]
    rfl
  have hone : (List.range 1).mapM (fun id => checked (nth .uniform 1 n id)) =
      .ok [nth .uniform 1 n 0] := by
    rw [List.range_one, List.mapM_cons, hchecked]
    rfl
  exact hone

end Partition

end ColoredCtl

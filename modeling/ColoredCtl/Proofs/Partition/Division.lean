import ColoredCtl.Color.Truth
import ColoredCtl.Proofs.Partition.Ownership

namespace ColoredCtl

open Color

/-- The smallest range with all states of a list; it is empty when the list is. -/
structure Span.Hull (r : Span) (states : List Nat) : Prop where
  empty : states = [] → r.isEmpty = true
  covers : ∀ state ∈ states, r.contains state = true
  least : states ≠ [] → ∀ q : Span, (∀ state ∈ states, q.contains state = true) →
    q.start ≤ r.start ∧ r.stop ≤ q.stop

/-- A range with states in it is the smallest one when it starts with a state and ends with one. -/
theorem Span.Hull.of_ends {r : Span} {states : List Nat} (last : Nat)
    (hcovers : ∀ state ∈ states, r.contains state = true) (hstart : r.start ∈ states)
    (hlast : last ∈ states) (hstop : r.stop = last + 1) : r.Hull states where
  empty hnil := by
    rw [hnil] at hstart
    cases hstart
  covers := hcovers
  least _ q hq := by
    have hfirst := (q.contains_iff _).1 (hq _ hstart)
    have hend := (q.contains_iff _).1 (hq _ hlast)
    omega

theorem Span.hull_toList (r : Span) : r.Hull r.toList := by
  by_cases hlt : r.start < r.stop
  · refine .of_ends (r.stop - 1) ?_ ((r.mem_toList _).2 (by omega))
      ((r.mem_toList _).2 (by omega)) (by omega)
    intro state hstate
    exact (r.contains_iff state).2 ((r.mem_toList state).1 hstate)
  · have hnil : r.toList = [] := by
      rw [← List.length_eq_zero_iff, r.length_toList, Span.length]
      omega
    rw [hnil]
    exact ⟨fun _ => decide_eq_true (by omega), by simp, fun hne => absurd rfl hne⟩

namespace Partition

/-- The range between the first and the last state of an increasing list is the smallest one. -/
theorem hull_spanOf {states : List Nat} (h : states.Pairwise (· < ·)) : (spanOf states).Hull states := by
  cases states with
  | nil => exact ⟨fun _ => rfl, by simp, fun hne => absurd rfl hne⟩
  | cons first rest =>
    have hcovers := (spanOf_bounds h (n := rest.getLastD first + 1) fun x hx =>
      Nat.lt_succ_of_le (le_getLastD h hx)).1
    exact .of_ends _ hcovers List.mem_cons_self List.getLastD_mem_cons rfl

theorem Proper.hull_localSpan {p : Partition} (hp : p.Proper) : p.localSpan.Hull p.localStates := by
  have hlisted := hull_spanOf hp.pairwise_localStates
  cases hstrategy : p.strategy with
  | hash | block size => simpa only [localSpan, hstrategy] using hlisted
  | uniform | interval ranges =>
    simp only [localSpan, localStates, hstrategy]
    exact Span.hull_toList _

/-- The ranges follow each other, from the first state of the space to its end. -/
structure Tiles (ranges : List Span) (stateCount : Nat) : Prop where
  ordered : ∀ r ∈ ranges, r.start ≤ r.stop
  first : ranges.head?.map Span.start = some 0
  chained : ranges.IsChain fun q r => q.stop = r.start
  last : ranges.getLast?.map Span.stop = some stateCount

/-- Ranges can be laid out from one state to another when they follow each other between the two. -/
theorem tile_eq_ok_iff_chain {first : Span} {rest : List Span} {next last : Nat} :
    tile next (first :: rest) = .ok last ↔
      (∀ r ∈ first :: rest, r.start ≤ r.stop) ∧ first.start = next ∧
        (first :: rest).IsChain (fun q r => q.stop = r.start) ∧ (rest.getLastD first).stop = last := by
  induction rest generalizing first next with
  | nil =>
    have hend : tile first.stop [] = .ok last ↔ first.stop = last :=
      ⟨fun h => Except.ok.inj h, fun h => congrArg Except.ok h⟩
    rw [tile_cons_eq_ok_iff, hend, List.forall_mem_singleton, List.getLastD_nil]
    constructor
    · rintro ⟨hstart, hle, hlast⟩
      exact ⟨hle, hstart, .singleton first, hlast⟩
    · rintro ⟨hle, hstart, _, hlast⟩
      exact ⟨hstart, hle, hlast⟩
  | cons second rest ih =>
    rw [tile_cons_eq_ok_iff, ih, List.forall_mem_cons (a := first), List.isChain_cons_cons,
      List.getLastD_cons]
    constructor
    · rintro ⟨hstart, hle, hordered, hsecond, hchain, hlast⟩
      exact ⟨⟨hle, hordered⟩, hstart, ⟨hsecond.symm, hchain⟩, hlast⟩
    · rintro ⟨⟨hle, hordered⟩, hstart, ⟨hsecond, hchain⟩, hlast⟩
      exact ⟨hstart, hle, hordered, hsecond.symm, hchain, hlast⟩

/-- Ranges are accepted exactly when there is one for each partition and they follow each other. -/
theorem checkIntervals_eq_ok_iff_tiles {ranges : List Span} {count stateCount : Nat} (hcount : 0 < count) :
    checkIntervals ranges count stateCount = .ok () ↔
      ranges.length = count ∧ Tiles ranges stateCount := by
  rw [checkIntervals_eq_ok_iff]
  refine and_congr_right fun hlength => ?_
  cases ranges with
  | nil =>
    rw [List.length_nil] at hlength
    omega
  | cons first rest =>
    rw [tile_eq_ok_iff_chain]
    constructor
    · rintro ⟨hordered, hfirst, hchained, hlast⟩
      exact ⟨hordered, by simp [hfirst], hchained, by simp [← hlast, List.getLast?_cons]⟩
    · rintro ⟨hordered, hfirst, hchained, hlast⟩
      exact ⟨hordered, by simpa using hfirst, hchained, by simpa [List.getLast?_cons] using hlast⟩

/-- A partition of listed ranges is made when the ranges are accepted. -/
theorem make_interval_eq_ok_iff {ranges : List Span} {id count stateCount : Nat} (hid : id < count)
    {p : Partition} :
    make (.interval ranges) id count stateCount = .ok p ↔
      checkIntervals ranges count stateCount = .ok () ∧
        nth (.interval ranges) count stateCount id = p := by
  rw [make_of_lt _ _ hid, checkStrategy]
  cases hcheck : checkIntervals ranges count stateCount with
  | error cause =>
    constructor
    · rintro ⟨⟩
    · rintro ⟨⟨⟩, _⟩
  | ok _ =>
    constructor
    · rintro ⟨⟩
      exact ⟨rfl, rfl⟩
    · rintro ⟨_, rfl⟩
      rfl

/-- The map takes values of the domain at the states of the partition, any number of them in any order,
and has the colors of all that it took. -/
def Takes {C : Type} {A : Algebra C} (R : Reading A) (p : Partition) (acc : Accumulator C) : Prop :=
  ∀ packet : Packet C,
    (∀ state a, (state, a) ∈ packet → (state < p.stateCount ∧ p.owner state = p.id) ∧ R.InDomain a) →
      ∃ next, acc.addAll A packet = .ok next ∧
        ∀ state c, c ∈ next.colorsAt R state ↔ ∃ a, (state, a) ∈ packet ∧ c ∈ R.colors a

theorem Proper.exists_takes {p : Partition} (hp : p.Proper) {C : Type} {A : Algebra C}
    (hroom : p.HasRoom A.domain) (R : Reading A) :
    ∃ acc, p.accumulator A p.id = .ok acc ∧ p.Takes R acc := by
  obtain ⟨acc, hacc, hfits, hrange, hempty⟩ := hp.accumulator_spec hroom R
  refine ⟨acc, hacc, ?_⟩
  intro packet hpacket
  obtain ⟨next, hnext, _, _, hcolors⟩ := hfits.addAll_spec fun state a hsa =>
    ⟨hrange state (hpacket state a hsa).1.1 (hpacket state a hsa).1.2, (hpacket state a hsa).2⟩
  refine ⟨next, hnext, ?_⟩
  intro state c
  rw [hcolors, hempty]
  exact or_iff_right (Finset.notMem_empty c)

/-- Slots that cannot be reserved are refused. -/
theorem accumulator_eq_error {p : Partition} {C : Type} {A : Algebra C} (hroom : ¬p.HasRoom A.domain) :
    p.accumulator A p.id = .error .capacity := by
  obtain ⟨hdense, hlimit⟩ := Classical.not_imp.1 hroom
  have hreserve : Capacity.reserve A.domain.slotBytes p.localSpan.length = .error .capacity := if_neg hlimit
  rw [accumulator, hdense, decide_eq_true rfl, Bool.and_self, if_pos rfl, Accumulator.newDense, hreserve]
  rfl

/-- The partitions are those of a division of the states, and what each of them says about its own
states agrees with it. -/
structure Divides (strategy : Strategy) (count stateCount : Nat) (partitions : List Partition) : Prop where
  /-- The partitions stand in the order of their numbers. -/
  numbered : partitions = (List.range count).map (nth strategy count stateCount)
  /-- Every state has one owner, and all partitions name it. -/
  owner_spec : ∀ state < stateCount, ∃ owner < count, ∀ p ∈ partitions, p.owner state = owner
  increasing : ∀ p ∈ partitions, p.localStates.Pairwise (· < ·)
  mem_localStates : ∀ p ∈ partitions, ∀ state,
    state ∈ p.localStates ↔ state < stateCount ∧ p.owner state = p.id
  hull : ∀ p ∈ partitions, p.localSpan.Hull p.localStates
  /-- A partition makes a map for all of its states, unless that needs more slots than there can be of
  the size that the values have. -/
  takes : ∀ p ∈ partitions, ∀ {C : Type} {A : Algebra C} (R : Reading A), p.HasRoom A.domain →
    ∃ acc, p.accumulator A p.id = .ok acc ∧ p.Takes R acc
  refuses : ∀ p ∈ partitions, ∀ {C : Type} {A : Algebra C}, ¬p.HasRoom A.domain →
    p.accumulator A p.id = .error .capacity

/-- All partitions of a space agree on the owner of each state, and on all they say about the states of
each of them. The strategy with listed ranges divides the space exactly when the ranges follow each
other through all of it, and then gives each state to the partition whose range contains it. -/
theorem divides_of_all {count stateCount : Nat} (hcount : 0 < count) :
    (∀ strategy partitions, all strategy count stateCount = .ok partitions →
      Divides strategy count stateCount partitions) ∧
    ∀ ranges, ∀ id < count,
      ((∃ p, make (.interval ranges) id count stateCount = .ok p) ↔
        ranges.length = count ∧ Tiles ranges stateCount) ∧
      ∀ p, make (.interval ranges) id count stateCount = .ok p → ∀ state < stateCount, ∀ i,
        p.owner state = i ↔ ∃ r, ranges[i]? = some r ∧ r.contains state = true := by
  refine ⟨?_, ?_⟩
  · intro strategy partitions hall
    obtain ⟨rfl, hproper⟩ := all_eq_ok hall
    have hmem {P : Partition → Prop} (h : ∀ id < count, P (nth strategy count stateCount id)) :
        ∀ p ∈ (List.range count).map (nth strategy count stateCount), P p := by
      intro p hp
      obtain ⟨id, hid, rfl⟩ := List.mem_map.1 hp
      exact h id (List.mem_range.1 hid)
    refine ⟨rfl, ?_, ?_, ?_, ?_, ?_, fun p _ _ _ => accumulator_eq_error⟩
    · intro state hstate
      exact ⟨_, (hproper 0 hcount).owner_lt hstate, hmem fun id _ => rfl⟩
    · exact hmem fun id hid => (hproper id hid).pairwise_localStates
    · exact hmem fun id hid state => (hproper id hid).mem_localStates
    · exact hmem fun id hid => (hproper id hid).hull_localSpan
    · exact hmem fun id hid _ _ R hroom => (hproper id hid).exists_takes hroom R
  · intro ranges id hid
    refine ⟨?_, ?_⟩
    · rw [← checkIntervals_eq_ok_iff_tiles hcount]
      simp only [make_interval_eq_ok_iff hid, exists_and_left, exists_eq', and_true]
    · intro p hmake state hstate i
      obtain ⟨hcheck, rfl⟩ := (make_interval_eq_ok_iff hid).1 hmake
      have htile := (checkIntervals_eq_ok_iff.1 hcheck).2
      have hsame : (nth (.interval ranges) count stateCount id).owner state =
          (nth (.interval ranges) count stateCount i).owner state := rfl
      simp only [hsame, Span.contains_iff]
      exact interval_owner_iff htile hstate

/-- Four ranges, two of them empty: the third partition owns nothing, though its range starts where the
states of the fourth do. -/
theorem divides_of_all_emptyRanges : 0 < 4 ∧
    (∃ partitions, all (.interval [⟨0, 0⟩, ⟨0, 2⟩, ⟨2, 2⟩, ⟨2, 3⟩]) 4 3 = .ok partitions ∧
      Divides (.interval [⟨0, 0⟩, ⟨0, 2⟩, ⟨2, 2⟩, ⟨2, 3⟩]) 4 3 partitions) ∧
    ∃ p, make (.interval [⟨0, 0⟩, ⟨0, 2⟩, ⟨2, 2⟩, ⟨2, 3⟩]) 2 4 3 = .ok p ∧ p.owner 2 = 3 := by
  have h := @divides_of_all 4 3 (by decide)
  refine ⟨by decide, ⟨_, rfl, h.1 _ _ rfl⟩, _, rfl, ?_⟩
  have howner := (h.2 [⟨0, 0⟩, ⟨0, 2⟩, ⟨2, 2⟩, ⟨2, 3⟩] 2 (by decide)).2 _ rfl 2 (by decide) 3
  exact howner.2 ⟨⟨2, 3⟩, rfl, rfl⟩

/-- One partition of so many states that there cannot be a slot for each: it owns them, and has no map
for them. -/
theorem accumulator_fails_at_limit : ∃ p, all .uniform 1 0x8000000000000000 = .ok [p] ∧
    p.owner 0 = p.id ∧ p.accumulator .truth p.id = .error .capacity :=
  ⟨whole 0x8000000000000000, rfl, rfl, rfl⟩

end Partition

end ColoredCtl

import ColoredCtl.Proofs.Color.Truth
import ColoredCtl.Proofs.State.ViewTrees

namespace ColoredCtl.StateMap

open Color

variable {C : Type} {A : Algebra C} {R : Reading A}

section Made

/-- All leaves have values of the domain only, at machine words. -/
def ViewTree.LeavesValued (R : Reading A) : ViewTree C → Prop
  | .leaf m => m.Valued R ∧ m.Addressed
  | .inter left right | .union left right | .diff left right =>
    left.LeavesValued R ∧ right.LeavesValued R

/-- The maps that views make from maps with values of the domain. -/
def Made (R : Reading A) (m : StateMap C) : Prop :=
  ∃ t : ViewTree C, t.LeavesValued R ∧ t.build = .ok m

/-- The set of states that is made of a map has the states that the map contains. -/
theorem contains_of_domain {m : StateMap C} {d : StateSet} (h : m.domain = .ok d) (state : Nat) :
    d.contains state = m.contains state := by
  cases m with
  | dense start values count =>
    obtain ⟨hadds, hcontains⟩ := StateSet.of_foldlM_insert h
    rw [Bool.eq_iff_iff, hcontains, contains_dense_iff, StateSet.contains_empty]
    simp only [Bool.false_eq_true, false_or]
    refine exists_congr fun slot => and_congr_right fun hslot => ?_
    obtain ⟨sum, hsum⟩ := hadds slot hslot
    rw [hsum, Except.ok.injEq, (Word.add_eq_ok_iff.1 hsum).1]
  | sparse values count =>
    have hstates := (StateSet.of_foldlM_insert (f := .ok) h).2 state
    rw [Bool.eq_iff_iff, hstates, contains, Std.TreeMap.map_fst_toList_eq_keys]
    simp
  | span range value count => exact StateSet.contains_of_ofSpan h state
  | single only value count =>
    have hstates := (StateSet.of_foldlM_insert (f := .ok) h).2 state
    rw [Bool.eq_iff_iff, hstates, contains, beq_iff_eq, eq_comm (a := state)]
    simp
  | empty count =>
    cases h
    simp [contains]
  | constant domain value =>
    cases h
    rfl
  | interView left right domain =>
    cases h
    rfl
  | unionView left right domain =>
    cases h
    rfl
  | diffView whole part domain =>
    cases h
    rfl

theorem Valued.inter {m k r : StateMap C} (hm : m.Valued R) (hk : k.Valued R) (h : m.inter k = .ok r) :
    r.Valued R ∧ r.Addressed := by
  obtain ⟨a, ha, h⟩ := bind_eq_ok_iff.1 h
  obtain ⟨b, hb, h⟩ := bind_eq_ok_iff.1 h
  obtain ⟨d, hd, h⟩ := bind_eq_ok_iff.1 h
  cases h
  refine ⟨⟨hm, hk, fun state => ?_⟩, trivial⟩
  rw [StateSet.contains_of_inter hd, contains_of_domain ha, contains_of_domain hb]

theorem Valued.union {m k r : StateMap C} (hm : m.Valued R) (hk : k.Valued R) (h : m.union k = .ok r) :
    r.Valued R ∧ r.Addressed := by
  obtain ⟨a, ha, h⟩ := bind_eq_ok_iff.1 h
  obtain ⟨b, hb, h⟩ := bind_eq_ok_iff.1 h
  obtain ⟨d, hd, h⟩ := bind_eq_ok_iff.1 h
  cases h
  refine ⟨⟨hm, hk, fun state => ?_⟩, trivial⟩
  rw [StateSet.contains_of_union hd, contains_of_domain ha, contains_of_domain hb]

theorem Valued.diff {m k r : StateMap C} (hm : m.Valued R) (hk : k.Valued R) (h : m.diff k = .ok r) :
    r.Valued R ∧ r.Addressed := by
  obtain ⟨d, hd, h⟩ := bind_eq_ok_iff.1 h
  cases h
  exact ⟨⟨hm, hk, contains_of_domain hd⟩, trivial⟩

theorem ViewTree.LeavesValued.of_build {t : ViewTree C} (ht : t.LeavesValued R) {m : StateMap C}
    (hm : t.build = .ok m) : m.Valued R ∧ m.Addressed := by
  induction t generalizing m with
  | leaf leaf =>
    cases hm
    exact ht
  | inter left right ihl ihr =>
    obtain ⟨a, ha, hm⟩ := bind_eq_ok_iff.1 hm
    obtain ⟨b, hb, hm⟩ := bind_eq_ok_iff.1 hm
    exact (ihl ht.1 ha).1.inter (ihr ht.2 hb).1 hm
  | union left right ihl ihr =>
    obtain ⟨a, ha, hm⟩ := bind_eq_ok_iff.1 hm
    obtain ⟨b, hb, hm⟩ := bind_eq_ok_iff.1 hm
    exact (ihl ht.1 ha).1.union (ihr ht.2 hb).1 hm
  | diff whole part ihw ihp =>
    obtain ⟨a, ha, hm⟩ := bind_eq_ok_iff.1 hm
    obtain ⟨b, hb, hm⟩ := bind_eq_ok_iff.1 hm
    exact (ihw ht.1 ha).1.diff (ihp ht.2 hb).1 hm

theorem Made.valued {m : StateMap C} (h : m.Made R) : m.Valued R := by
  obtain ⟨t, ht, hm⟩ := h
  exact (ht.of_build hm).1

theorem Made.addressed {m : StateMap C} (h : m.Made R) : m.Addressed := by
  obtain ⟨t, ht, hm⟩ := h
  exact (ht.of_build hm).2

/-- A map made from entries with different states holds what these hold. -/
theorem made_ofEntries {entries : List (Nat × C)} (hkeys : (entries.map (·.1)).Nodup) (count : Nat)
    (h : ∀ state a, (state, a) ∈ entries → R.InDomain a) : (ofEntries entries count).Made R := by
  refine ⟨.leaf (ofEntries entries count), ⟨fun state a hvalue => ?_, trivial⟩, rfl⟩
  exact h state a ((get?_ofEntries (A := A) (n := count) hkeys).1 (congrArg Except.ok hvalue))

end Made

section Comparison

theorem isEmpty_spec {a : C} (ha : R.InDomain a) :
    ∃ found, A.isEmpty a = .ok found ∧ (found = true ↔ R.colors a = ∅) := by
  obtain ⟨found, hfound, hiff⟩ := R.nonempty_spec ha
  refine ⟨!found, by simp [Operations.isEmpty, hfound, pure, Except.pure], ?_⟩
  rw [Bool.not_eq_true', ← Bool.not_eq_true, hiff, Finset.not_nonempty_iff_eq_empty]

theorem sameValue_spec (hR : R.Equates) {a b : Option C} (ha : R.Accepts a) (hb : R.Accepts b) :
    ∃ found, sameValue A a b = .ok found ∧ (found = true ↔ R.colorsOf a = R.colorsOf b) := by
  cases a with
  | none =>
    cases b with
    | none => exact ⟨true, rfl, by simp⟩
    | some y =>
      obtain ⟨found, hfound, hiff⟩ := isEmpty_spec (hb y rfl)
      exact ⟨found, hfound, by rw [hiff, R.colorsOf_none, R.colorsOf_some, eq_comm]⟩
  | some x =>
    cases b with
    | none => exact isEmpty_spec (ha x rfl)
    | some y => exact hR (ha x rfl) (hb y rfl)

variable {m k : StateMap C}

theorem agreeAt_spec (hR : R.Equates) (hm : m.Valued R) (hk : k.Valued R) (state : Nat) :
    ∃ found, agreeAt A m k state = .ok found ∧
      (found = true ↔ m.colorsAt R state = k.colorsAt R state) := by
  obtain ⟨a, ha, haccept, _⟩ := hm.get?_spec state
  obtain ⟨b, hb, hbccept, _⟩ := hk.get?_spec state
  rw [agreeAt, ha, hb, colorsAt_eq ha, colorsAt_eq hb]
  exact sameValue_spec hR haccept hbccept

/-- The comparison over a list of states stops at the first difference. -/
theorem agreeOn_spec (hR : R.Equates) (hm : m.Valued R) (hk : k.Valued R) (states : List Nat) :
    ∃ found, agreeOn A m k states = .ok found ∧
      (found = true ↔ ∀ state ∈ states, m.colorsAt R state = k.colorsAt R state) := by
  induction states with
  | nil => exact ⟨true, rfl, by simp⟩
  | cons state rest ih =>
    obtain ⟨found, hfound, hiff⟩ := agreeAt_spec hR hm hk state
    rw [agreeOn, hfound, ok_bind]
    cases found with
    | false =>
      refine ⟨false, rfl, ?_⟩
      simp [← hiff]
    | true =>
      obtain ⟨others, hothers, hrest⟩ := ih
      refine ⟨others, hothers, ?_⟩
      simp [hrest, hiff.1 rfl]

theorem agreeFrom_eq (A : Algebra C) (m k : StateMap C) (count state : Nat) :
    agreeFrom A m k count state = agreeOn A m k (List.range' state count) := by
  induction count generalizing state with
  | zero => rfl
  | succ count ih => rw [agreeFrom, List.range'_succ, agreeOn, ih]

theorem agreeSlots_eq (A : Algebra C) (m k : StateMap C) {start : Nat} {slots : List (Nat × C)}
    (h : ∀ slot ∈ slots, Word.add start slot.1 = .ok (start + slot.1)) :
    agreeSlots A m k start slots = agreeOn A m k (slots.map fun slot => start + slot.1) := by
  induction slots with
  | nil => rfl
  | cons slot rest ih =>
    rw [agreeSlots, List.map_cons, agreeOn, h slot List.mem_cons_self, ok_bind,
      ih fun other hother => h other (List.mem_cons_of_mem _ hother)]

/-- The states at which maps are compared are those that a map contains. -/
theorem agreeWhere_eq (A : Algebra C) (m k : StateMap C) {other : StateMap C} (h : other.Addressed) :
    ∃ states, agreeWhere A m k other = agreeOn A m k states ∧
      ∀ state, state ∈ states ↔ other.contains state = true := by
  cases other with
  | dense start values count =>
    refine ⟨_, agreeSlots_eq A m k fun slot hslot => add_slot h hslot, fun state => ?_⟩
    rw [List.mem_map, contains_dense_iff]
  | sparse values count =>
    refine ⟨values.toList.map (·.1), rfl, fun state => ?_⟩
    rw [Std.TreeMap.map_fst_toList_eq_keys, contains]
    simp
  | span range value count =>
    refine ⟨range.toList, agreeFrom_eq A m k _ _, fun state => ?_⟩
    rw [Span.mem_toList, contains, Span.contains_iff]
  | single only value count => exact ⟨[only], rfl, fun state => by simp [contains]⟩
  | empty count => exact ⟨[], rfl, fun state => by simp [contains]⟩
  | constant domain value => exact ⟨domain.toList, rfl, fun state => domain.mem_toList state⟩
  | interView left right domain => exact ⟨domain.toList, rfl, fun state => domain.mem_toList state⟩
  | unionView left right domain => exact ⟨domain.toList, rfl, fun state => domain.mem_toList state⟩
  | diffView whole part domain => exact ⟨domain.toList, rfl, fun state => domain.mem_toList state⟩

theorem agreeWhere_spec (hR : R.Equates) (hm : m.Valued R) (hk : k.Valued R) {other : StateMap C}
    (h : other.Addressed) :
    ∃ found, agreeWhere A m k other = .ok found ∧ (found = true ↔
      ∀ state, other.contains state = true → m.colorsAt R state = k.colorsAt R state) := by
  obtain ⟨states, hstates, hmem⟩ := agreeWhere_eq A m k h
  obtain ⟨found, hfound, hiff⟩ := agreeOn_spec hR hm hk states
  exact ⟨found, hstates.trans hfound, by simp only [hiff, hmem]⟩

/-- The comparison succeeds, and tells whether the maps have the same colors at every state. -/
theorem Made.equal_spec (hR : R.Equates) (hm : m.Made R) (hk : k.Made R) :
    ∃ found, m.equal A k = .ok found ∧
      (found = true ↔ ∀ state, m.colorsAt R state = k.colorsAt R state) := by
  obtain ⟨here, hhere, hhereIff⟩ := agreeWhere_spec hR hm.valued hk.valued hm.addressed
  obtain ⟨there, hthere, hthereIff⟩ := agreeWhere_spec hR hm.valued hk.valued hk.addressed
  refine ⟨here && there, ?_, ?_⟩
  · rw [equal, hhere, ok_bind]
    cases here with
    | false => rfl
    | true => exact hthere
  · rw [Bool.and_eq_true, hhereIff, hthereIff]
    constructor
    · rintro ⟨hleft, hright⟩ state
      -- A state that neither map contains has no color in both.
      by_cases hmstate : m.contains state = true
      · exact hleft state hmstate
      · by_cases hkstate : k.contains state = true
        · exact hright state hkstate
        · rw [hm.valued.colorsAt_eq_empty (by simpa using hmstate),
            hk.valued.colorsAt_eq_empty (by simpa using hkstate)]
    · intro h
      exact ⟨fun state _ => h state, fun state _ => h state⟩

theorem Made.equal_iff (hR : R.Equates) (hm : m.Made R) (hk : k.Made R) :
    m.equal A k = .ok true ↔ ∀ state, m.colorsAt R state = k.colorsAt R state := by
  obtain ⟨found, hfound, hiff⟩ := hm.equal_spec hR hk
  rw [hfound, ← hiff, Except.ok.injEq]

/-- Comparing maps is an equivalence relation. -/
theorem equal_equivalence (hR : R.Equates) :
    Equivalence fun m k : {m : StateMap C // m.Made R} => m.1.equal A k.1 = .ok true where
  refl m := (m.2.equal_iff hR m.2).2 fun _ => rfl
  symm {m k} h := (k.2.equal_iff hR m.2).2 fun state => ((m.2.equal_iff hR k.2).1 h state).symm
  trans {m k l} h h' := (m.2.equal_iff hR l.2).2 fun state =>
    ((m.2.equal_iff hR k.2).1 h state).trans ((k.2.equal_iff hR l.2).1 h' state)

end Comparison

section Copies

variable {m : StateMap C}

/-- A map made from entries that tell another one is equal to it. -/
theorem Made.equal_ofEntries (hR : R.Equates) (hm : m.Made R) {entries : List (Nat × C)}
    (hlists : m.Lists R entries) (count : Nat) :
    (ofEntries entries count).Made R ∧ m.equal A (ofEntries entries count) = .ok true := by
  have hkeys : (entries.map (·.1)).Nodup := hlists.inOrder.imp fun hlt => Nat.ne_of_lt hlt
  have hmade : (ofEntries entries count).Made R :=
    made_ofEntries hkeys count fun state a hmem => hm.valued.inDomain (hlists.get?_eq hmem)
  refine ⟨hmade, (hm.equal_iff hR hmade).2 fun state => Finset.ext fun c => ?_⟩
  simp only [mem_colorsAt_iff, get?_ofEntries hkeys]
  constructor
  · rintro ⟨a, ha, hc⟩
    exact ⟨a, hlists.mem_of_nonempty ha ⟨c, hc⟩, hc⟩
  · rintro ⟨a, ha, hc⟩
    exact ⟨a, hlists.get?_eq ha, hc⟩

/-- The copy of the values that are not empty can be made where a table can be that large, and is equal
to the map. -/
theorem Made.materialize_spec (hR : R.Equates) (hm : m.Made R) (hsize : m.sizeHint ≤ Capacity.tableLimit) :
    ∃ copy, m.materialize A = .ok copy ∧ copy.Made R ∧ m.equal A copy = .ok true := by
  obtain ⟨entries, hentries, hlists⟩ := hm.valued.entries_spec hm.addressed
    (hsize.trans Capacity.tableLimit_le_stateLimit)
  obtain ⟨kept, hkept, horder, hmem⟩ := hm.valued.materialize_eq hentries hlists
  have hkeeps : m.Lists R kept :=
    ⟨horder, fun hin => ((hmem _ _).1 hin).1, fun hget hnonempty => (hmem _ _).2 ⟨hget, hnonempty⟩⟩
  rw [Capacity.reserveTable, if_pos hsize] at hkept
  exact ⟨_, hkept, hm.equal_ofEntries hR hkeeps _⟩

section Transfer

variable {domain : Domain} {target : Algebra domain.Value} {m : StateMap domain.Value}

/-- Values are moved as they are within a domain. -/
theorem transfer_value (htarget : target.domain = domain) {a : domain.Value}
    (ha : domain.reading.InDomain a) : domain.algebra.transfer target a = .ok a := by
  rw [Algebra.transfer, if_pos (domain.domain_algebra.trans htarget.symm), Domain.accept_eq ha]
  rfl

theorem transfer_value_mismatch (htarget : target.domain ≠ domain) (a : domain.Value) :
    domain.algebra.transfer target a = .error (.error (.domainMismatch domain target.domain)) := by
  rw [Algebra.transfer, domain.domain_algebra, if_neg (Ne.symm htarget)]
  rfl

/-- A map can be moved within its domain where a table can be that large, and stays equal. -/
theorem Made.transfer_spec (hm : m.Made domain.reading) (hsize : m.sizeHint ≤ Capacity.tableLimit)
    (htarget : target.domain = domain) :
    ∃ copy, m.transfer domain.algebra target = .ok copy ∧ copy.Made domain.reading ∧
      m.equal domain.algebra copy = .ok true := by
  obtain ⟨entries, hentries, hlists⟩ := hm.valued.entries_spec hm.addressed
    (hsize.trans Capacity.tableLimit_le_stateLimit)
  have hrun := foldlM_run (l := entries) (s := (∅ : Std.TreeMap Nat domain.Value))
    (f := fun moved (entry : Nat × domain.Value) => (do
      let value ← (domain.algebra.transfer target entry.2).mapError (Failure.map .algebra)
      return moved.insert entry.1 value : Except (Failure MapError) (Std.TreeMap Nat domain.Value)))
    (fun done table => table = done.foldl (fun m (state, value) => m.insert state value) ∅) rfl ?_
  · obtain ⟨table, htable, rfl⟩ := hrun
    refine ⟨ofEntries entries m.stateCount, ?_, hm.equal_ofEntries domain.equates hlists _⟩
    rw [transfer, foldEntries_eq (fun _ => rfl) hentries, Capacity.reserveTable, if_pos hsize]
    exact bind_eq_ok_iff.2 ⟨(), rfl, bind_eq_ok_iff.2 ⟨_, htable, rfl⟩⟩
  · rintro done ⟨state, a⟩ rest table hsplit rfl
    have hmem : (state, a) ∈ entries := by simp [hsplit]
    have hvalue := transfer_value htarget (hm.valued.inDomain (hlists.get?_eq hmem))
    simp [hvalue, pure, Except.pure]

/-- A map with entries cannot be moved to another domain. -/
theorem transfer_mismatch (htarget : target.domain ≠ domain) {entries : List (Nat × domain.Value)}
    (hentries : m.entries domain.algebra = .ok entries) (hsize : m.sizeHint ≤ Capacity.tableLimit) :
    m.transfer domain.algebra target =
      if entries = [] then .ok (ofEntries [] m.stateCount)
      else .error (.error (.algebra (.domainMismatch domain target.domain))) := by
  rw [transfer, foldEntries_eq (fun _ => rfl) hentries, Capacity.reserveTable, if_pos hsize]
  cases entries with
  | nil => rfl
  | cons entry rest =>
    obtain ⟨state, a⟩ := entry
    simp only [List.foldlM_cons, transfer_value_mismatch htarget a, if_neg (List.cons_ne_nil _ rest)]
    rfl

end Transfer

/-- Comparing two maps tells whether they have the same colors everywhere, whatever their layouts are.
Where a table can be as large as a map may be, its copies can be made and are equal to it, and only a map
without entries can be moved to another domain. -/
theorem Made.equal_tells_same_colors {domain : Domain} {m k : StateMap domain.Value}
    (hm : m.Made domain.reading) (hk : k.Made domain.reading) (target : Algebra domain.Value) :
    (∀ state, ∃ value, m.get? domain.algebra state = .ok value ∧
      m.colorsAt domain.reading state = domain.reading.colorsOf value) ∧
    (∃ found, m.equal domain.algebra k = .ok found ∧ (found = true ↔
      ∀ state, m.colorsAt domain.reading state = k.colorsAt domain.reading state)) ∧
    Equivalence (fun a b : {a : StateMap domain.Value // a.Made domain.reading} =>
      a.1.equal domain.algebra b.1 = .ok true) ∧
    (m.sizeHint ≤ Capacity.tableLimit →
      (∃ copy, m.materialize domain.algebra = .ok copy ∧ copy.Made domain.reading ∧
        m.equal domain.algebra copy = .ok true) ∧
      (target.domain = domain → ∃ copy, m.transfer domain.algebra target = .ok copy ∧
        copy.Made domain.reading ∧ m.equal domain.algebra copy = .ok true) ∧
      (target.domain ≠ domain → ∃ entries, m.entries domain.algebra = .ok entries ∧
        m.transfer domain.algebra target =
          if entries = [] then .ok (ofEntries [] m.stateCount)
          else .error (.error (.algebra (.domainMismatch domain target.domain))))) ∧
    (Capacity.tableLimit < m.sizeHint → m.materialize domain.algebra = .error .tableCapacity ∧
      m.transfer domain.algebra target = .error (.misuse .tableCapacity)) := by
  refine ⟨fun state => ?_, hm.equal_spec domain.equates hk, equal_equivalence domain.equates,
    fun hsize => ⟨hm.materialize_spec domain.equates hsize, hm.transfer_spec hsize, fun htarget => ?_⟩,
    fun hsize => ?_⟩
  · obtain ⟨value, hvalue, _⟩ := hm.valued.get?_spec state
    exact ⟨value, hvalue, colorsAt_eq hvalue⟩
  · obtain ⟨entries, hentries, _⟩ := hm.valued.entries_spec hm.addressed
      (hsize.trans Capacity.tableLimit_le_stateLimit)
    exact ⟨entries, hentries, transfer_mismatch htarget hentries hsize⟩
  · rw [materialize, transfer, Capacity.reserveTable, if_neg (Nat.not_le.2 hsize)]
    exact ⟨rfl, rfl⟩

/-- A map with slots and a view of a span, which differ in an empty value only, and a domain of another
size. -/
theorem equal_tells_same_colors_layouts :
    let m : StateMap ColorSet := .dense 1 #[some (.full 3), none, some (.empty 3)] 4
    let t : ViewTree ColorSet := .diff (.leaf (.span ⟨0, 2⟩ (.full 3) 4)) (.leaf (.single 0 (.full 3) 4))
    ∃ k, t.build = .ok k ∧ m.Made (Reading.explicit 3) ∧ k.Made (Reading.explicit 3) ∧
      m.equal (.explicit 3) k = .ok true ∧
      (∀ state, m.colorsAt (Reading.explicit 3) state = k.colorsAt (Reading.explicit 3) state) ∧
      (∃ copy, m.materialize (.explicit 3) = .ok copy ∧ m.equal (.explicit 3) copy = .ok true) ∧
      m.transfer (.explicit 3) (.explicit 5) =
        .error (.error (.algebra (.domainMismatch (.explicit 3) (.explicit 5)))) := by
  intro m t
  have hfull : (Reading.explicit 3).InDomain (.full 3) := ColorSet.inDomain_full 3
  have hempty : (Reading.explicit 3).InDomain (.empty 3) := ColorSet.inDomain_empty 3
  have hslots (state : Nat) (a : ColorSet)
      (ha : slot? 1 #[some (.full 3), none, some (.empty 3)] state = some a) :
      (Reading.explicit 3).InDomain a ∧ state < Word.bound := by
    obtain ⟨i, hi, rfl⟩ := slot?_eq_some_iff.1 ha
    obtain ⟨rfl, rfl⟩ | ⟨rfl, rfl⟩ : i = 0 ∧ a = .full 3 ∨ i = 2 ∧ a = .empty 3 := by
      simpa [slots, firstSlots] using hi
    · exact ⟨hfull, by decide⟩
    · exact ⟨hempty, by decide⟩
  have hm : m.Made (Reading.explicit 3) :=
    ⟨.leaf m, ⟨fun state a ha => (hslots state a ha).1, fun state a ha => (hslots state a ha).2⟩, rfl⟩
  have hleaves : t.LeavesValued (Reading.explicit 3) := ⟨⟨hfull, trivial⟩, hfull, trivial⟩
  obtain ⟨k, hk⟩ : ∃ k, t.build = .ok k := ⟨_, rfl⟩
  have hmade : k.Made (Reading.explicit 3) := ⟨t, hleaves, hk⟩
  have hequal : m.equal (.explicit 3) k = .ok true := by
    cases hk
    decide +kernel
  obtain ⟨_, ⟨found, hfound, hiff⟩, _, hcopies, _⟩ :=
    @Made.equal_tells_same_colors (.explicit 3) m k hm hmade (.explicit 5)
  obtain ⟨⟨copy, hcopy, _, hsame⟩, _, hmoved⟩ := hcopies (by decide)
  obtain ⟨entries, hentries, htransfer⟩ := hmoved (by decide)
  cases hfound.symm.trans hequal
  have hlisted : m.entries (.explicit 3) = .ok [(1, .full 3), (3, .empty 3)] := rfl
  cases hentries.symm.trans hlisted
  exact ⟨k, hk, hm, hmade, hequal, hiff.1 rfl, ⟨copy, hcopy, hsame⟩, htransfer⟩

/-- No table can be as large as a map over a long span may be, even if all its values are empty. -/
theorem materialize_long_span :
    let m : StateMap ColorSet := .span ⟨0, 0x8000000000000000⟩ (.empty 1) 4
    m.Made (Reading.explicit 1) ∧ m.materialize (.explicit 1) = .error .tableCapacity := by
  intro m
  have hvalued : m.Valued (Reading.explicit 1) := ColorSet.inDomain_empty 1
  exact ⟨⟨.leaf m, ⟨hvalued, trivial⟩, rfl⟩, rfl⟩

end Copies

end ColoredCtl.StateMap

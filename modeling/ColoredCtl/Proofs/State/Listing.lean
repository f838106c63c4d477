import ColoredCtl.Proofs.State.Maps

namespace ColoredCtl.StateMap

open Color

variable {C : Type} {A : Algebra C} {R : Reading A} {n : Nat}

theorem le_bound_of_le_stateLimit (hn : n ≤ Capacity.stateLimit) : n ≤ Word.bound := by
  have : Capacity.stateLimit < Word.bound := by decide
  omega

/-- There is room for an entry of each state. -/
theorem reserve_entries (A : Algebra C) {count : Nat} (h : count ≤ Capacity.stateLimit) :
    Capacity.reserve A.domain.entryBytes count = .ok () := by
  refine Capacity.reserve_of_le_stateLimit ?_ ?_ h
  · cases A.domain <;> simp [Domain.entryBytes]
  · cases A.domain <;> simp [Domain.entryBytes, Capacity.rowBytes]

theorem mem_slots {values : Array (Option C)} {i : Nat} {a : C} :
    (i, a) ∈ slots values ↔ values[i]? = some (some a) := by
  rw [slots_eq, List.mem_filterMap]
  simp only [List.mem_range, Array.getD_eq_getD_getElem?, Option.map_eq_some_iff, Prod.mk.injEq]
  constructor
  · rintro ⟨j, hj, b, hb, rfl, rfl⟩
    simpa [hj] using hb
  · intro h
    obtain ⟨hi, heq⟩ := Array.getElem?_eq_some_iff.1 h
    exact ⟨i, hi, a, by simp [h], rfl, rfl⟩

theorem slot?_eq_some_iff {start state : Nat} {values : Array (Option C)} {a : C} :
    slot? start values state = some a ↔ ∃ i, (i, a) ∈ slots values ∧ start + i = state := by
  unfold slot?
  by_cases h : start ≤ state
  · rw [if_pos h]
    constructor
    · intro hslot
      refine ⟨state - start, mem_slots.2 ?_, by omega⟩
      exact Option.join_eq_some_iff.1 hslot
    · rintro ⟨i, hi, rfl⟩
      rw [Nat.add_sub_cancel_left, mem_slots.1 hi]
      rfl
  · rw [if_neg h]
    constructor
    · intro hslot
      cases hslot
    · rintro ⟨i, _, hi⟩
      omega

/-- A dense map contains the states of its slots that have a value. -/
theorem contains_dense_iff {start count state : Nat} {values : Array (Option C)} :
    (dense start values count).contains state = true ↔ ∃ slot ∈ slots values, start + slot.1 = state := by
  rw [contains, Option.isSome_iff_exists]
  constructor
  · rintro ⟨a, ha⟩
    obtain ⟨i, hslot, hi⟩ := slot?_eq_some_iff.1 ha
    exact ⟨(i, a), hslot, hi⟩
  · rintro ⟨⟨i, a⟩, hslot, rfl⟩
    exact ⟨a, slot?_eq_some_iff.2 ⟨i, hslot, rfl⟩⟩

theorem pairwise_slots (values : Array (Option C)) : InOrder (slots values) := by
  rw [slots_eq]
  apply InOrder.filterMap List.pairwise_lt_range
  intro i _ entry h
  rw [Option.map_eq_some_iff] at h
  obtain ⟨a, _, rfl⟩ := h
  rfl

/-- The slots of a dense map lie at machine words. -/
def Addressed : StateMap C → Prop
  | .dense start values _ => ∀ state a, slot? start values state = some a → state < Word.bound
  | _ => True

theorem Fits.addressed {m : StateMap C} (h : m.Fits R n) (hn : n ≤ Word.bound) : m.Addressed := by
  cases m with
  | dense start values count => exact fun state a ha => ((h.2 state a ha).1).trans_le hn
  | _ => trivial

theorem add_slot {start : Nat} {values : Array (Option C)}
    (h : ∀ state a, slot? start values state = some a → state < Word.bound) {slot : Nat × C}
    (hslot : slot ∈ slots values) : Word.add start slot.1 = .ok (start + slot.1) :=
  Word.add_eq_ok_iff.2 ⟨rfl, h _ slot.2 (slot?_eq_some_iff.2 ⟨slot.1, hslot, rfl⟩)⟩

/-- The slots of a dense map are its entries, counted from the first state on. -/
theorem denseEntries_spec {start : Nat} {values : Array (Option C)}
    (h : ∀ state a, slot? start values state = some a → state < Word.bound) :
    denseEntries start values = .ok ((slots values).map fun slot => (start + slot.1, slot.2)) := by
  apply mapM_eq_ok
  intro slot hslot
  simp [slotEntry, add_slot h hslot, pure, Except.pure]

/-- The set of the states that a map contains. -/
theorem Fits.domain_spec {m : StateMap C} (h : m.Fits R n) (hn : n ≤ Word.bound) :
    ∃ d, m.domain = .ok d ∧ d.stateCount = n ∧ ∀ state, d.contains state = m.contains state := by
  cases m with
  | dense start values count =>
    have haddressed := h.addressed hn
    obtain ⟨rfl, hslots⟩ := h
    have hlt : ∀ slot ∈ slots values, start + slot.1 < count := fun slot hslot =>
      (hslots _ slot.2 (slot?_eq_some_iff.2 ⟨slot.1, hslot, rfl⟩)).1
    obtain ⟨d, hd, hcount, hcontains⟩ := StateSet.foldlM_insert_spec (l := slots values)
      (f := fun slot => Word.add start slot.1) (g := fun slot => start + slot.1)
      (fun slot hslot => add_slot haddressed hslot) hlt
    refine ⟨d, hd, hcount, ?_⟩
    intro state
    rw [Bool.eq_iff_iff, hcontains, contains_dense_iff]
  | sparse values count =>
    obtain ⟨rfl, hvalues⟩ := h
    obtain ⟨d, hd, hcount, hcontains⟩ := StateSet.ofList_spec (n := count)
      (l := values.toList.map (·.1)) (by
        intro state hstate
        obtain ⟨⟨_, a⟩, hmem, rfl⟩ := List.mem_map.1 hstate
        exact (hvalues _ a (Std.TreeMap.mem_toList_iff_getElem?_eq_some.1 hmem)).1)
    refine ⟨d, hd, hcount, ?_⟩
    intro state
    rw [Bool.eq_iff_iff, hcontains, Std.TreeMap.map_fst_toList_eq_keys]
    simp [contains]
  | span range value count =>
    obtain ⟨rfl, hstop, _⟩ := h
    exact StateSet.ofSpan_spec hstop
  | single only value count =>
    obtain ⟨rfl, hlt, _⟩ := h
    obtain ⟨d, hd, hcount, hcontains⟩ := StateSet.ofList_spec (n := count) (l := [only]) (by simpa)
    refine ⟨d, hd, hcount, ?_⟩
    intro state
    rw [Bool.eq_iff_iff, hcontains]
    simp [contains]
  | empty count =>
    cases h
    exact ⟨.empty _, rfl, rfl, by simp [contains]⟩
  | constant domain value => exact ⟨domain, rfl, h.1, fun _ => rfl⟩
  | interView left right domain => exact ⟨domain, rfl, h.2.2.1, fun _ => rfl⟩
  | unionView left right domain => exact ⟨domain, rfl, h.2.2.1, fun _ => rfl⟩
  | diffView whole part domain => exact ⟨domain, rfl, h.2.2.1, fun _ => rfl⟩

theorem keys_eq_range_filter {values : Std.TreeMap Nat C} (h : ∀ state ∈ values, state < n) :
    values.toList.map (·.1) = (List.range n).filter values.contains := by
  rw [Std.TreeMap.map_fst_toList_eq_keys]
  refine eq_range_filter ?_ ?_
  · exact values.ordered_keys.imp fun hlt => Nat.compare_eq_lt.1 hlt
  · intro state
    rw [Std.TreeMap.mem_keys, ← Std.TreeMap.contains_iff_mem]
    exact ⟨fun hin => ⟨h state (Std.TreeMap.contains_iff_mem.1 hin), hin⟩, fun hin => hin.2⟩

/-- The states that a map contains, in increasing order. -/
theorem Fits.states_spec {m : StateMap C} (h : m.Fits R n) (hn : n ≤ Capacity.stateLimit) :
    m.states = .ok ((List.range n).filter m.contains) := by
  have hset (d : StateSet) (hd : d.stateCount = n) : d.toList = (List.range n).filter d.contains :=
    hd ▸ d.toList_eq
  cases m with
  | dense start values count =>
    have hentries := denseEntries_spec (h.addressed (le_bound_of_le_stateLimit hn))
    obtain ⟨rfl, hslots⟩ := h
    simp only [states, hentries, ok_bind, pure, Except.pure, List.map_map]
    congr 1
    refine eq_range_filter ?_ ?_
    · have horder := pairwise_slots values
      rw [InOrder, List.pairwise_map] at horder
      rw [List.pairwise_map]
      exact horder.imp fun hlt => Nat.add_lt_add_left hlt start
    · intro state
      rw [List.mem_map]
      constructor
      · rintro ⟨⟨i, a⟩, hslot, rfl⟩
        have hfound : slot? start values (start + i) = some a := slot?_eq_some_iff.2 ⟨i, hslot, rfl⟩
        exact ⟨(hslots _ a hfound).1, contains_dense_iff.2 ⟨(i, a), hslot, rfl⟩⟩
      · exact fun hin => contains_dense_iff.1 hin.2
  | sparse values count =>
    obtain ⟨rfl, hvalues⟩ := h
    refine congrArg Except.ok (keys_eq_range_filter ?_)
    intro state hstate
    exact (hvalues state _ (Std.TreeMap.getElem?_eq_some_getElem hstate)).1
  | span range value count =>
    obtain ⟨rfl, hstop, _⟩ := h
    have hlength : range.length ≤ Capacity.stateLimit := by
      unfold Span.length
      by_cases hlt : range.start < range.stop
      · have := hstop hlt
        omega
      · omega
    have hroom : Capacity.reserve Capacity.wordBytes range.length = .ok () :=
      Capacity.reserve_of_le_stateLimit (by decide) (by decide) hlength
    simp only [states, hroom, ok_bind, pure, Except.pure]
    congr 1
    refine eq_range_filter List.pairwise_lt_range' ?_
    intro state
    rw [Span.mem_toList, contains, Span.contains_iff]
    constructor
    · intro hrange
      have := hstop (by omega)
      exact ⟨by omega, hrange⟩
    · exact fun hrange => hrange.2
  | single only value count =>
    obtain ⟨rfl, hlt, _⟩ := h
    refine congrArg Except.ok (eq_range_filter (List.pairwise_singleton _ _) ?_)
    intro state
    rw [List.mem_singleton, contains, beq_iff_eq]
    constructor
    · rintro rfl
      exact ⟨hlt, rfl⟩
    · exact fun heq => heq.2
  | empty count => simp [states, contains]
  | constant domain value => exact congrArg Except.ok (hset domain h.1)
  | interView left right domain => exact congrArg Except.ok (hset domain h.2.2.1)
  | unionView left right domain => exact congrArg Except.ok (hset domain h.2.2.1)
  | diffView whole part domain => exact congrArg Except.ok (hset domain h.2.2.1)

/-- The size hint is the number of states that a map contains. -/
theorem Fits.sizeHint_eq {m : StateMap C} (h : m.Fits R n) (hn : n ≤ Capacity.stateLimit) :
    m.sizeHint = ((List.range n).filter m.contains).length := by
  have hstates := h.states_spec hn
  cases m with
  | dense start values count =>
    have hentries := denseEntries_spec (h.addressed (le_bound_of_le_stateLimit hn))
    simp only [states, hentries, ok_bind, pure, Except.pure, Except.ok.injEq] at hstates
    rw [← hstates]
    simp [sizeHint]
  | sparse values count =>
    rw [← Except.ok.inj hstates, sizeHint, List.length_map, Std.TreeMap.length_toList]
  | span range value count =>
    obtain ⟨_, _, hlist⟩ := bind_eq_ok_iff.1 hstates
    rw [← Except.ok.inj hlist, sizeHint, Span.length_toList]
  | single only value count => rw [← Except.ok.inj hstates]; rfl
  | empty count => rw [← Except.ok.inj hstates]; rfl
  | constant domain value => rw [← Except.ok.inj hstates]; rfl
  | interView left right domain => rw [← Except.ok.inj hstates]; rfl
  | unionView left right domain => rw [← Except.ok.inj hstates]; rfl
  | diffView whole part domain => rw [← Except.ok.inj hstates]; rfl

theorem Fits.sizeHint_le {m : StateMap C} (h : m.Fits R n) (hn : n ≤ Capacity.stateLimit) :
    m.sizeHint ≤ n := by
  rw [h.sizeHint_eq hn]
  exact (List.length_filter_le _ _).trans_eq List.length_range

/-- A list of entries tells a map apart from all others, up to values that are empty: it has values
of the map only, in order, and all that are not empty. -/
structure Lists (R : Reading A) (m : StateMap C) (entries : List (Nat × C)) : Prop where
  inOrder : InOrder entries
  get?_eq : ∀ {state a}, (state, a) ∈ entries → m.get? A state = .ok (some a)
  mem_of_nonempty : ∀ {state a}, m.get? A state = .ok (some a) → (R.colors a).Nonempty →
    (state, a) ∈ entries

theorem Lists.of_eager {m : StateMap C} {entries : List (Nat × C)} (horder : InOrder entries)
    (h : ∀ state a, (state, a) ∈ entries ↔ m.get? A state = .ok (some a)) : m.Lists R entries :=
  ⟨horder, fun hmem => (h _ _).1 hmem, fun hget _ => (h _ _).2 hget⟩

/-- The entries of a view are its values at the states of its domain that are not empty. -/
theorem Valued.viewEntries_spec {m : StateMap C} (h : m.Valued R) (domain : StateSet)
    (hdomain : ∀ state, domain.contains state = m.contains state) :
    ∃ entries, m.viewEntries A domain = .ok entries ∧ m.Lists R entries ∧
      ∀ state a, (state, a) ∈ entries → (R.colors a).Nonempty := by
  have hentry (state : Nat) : ∃ found, m.viewItem? A state = .ok found ∧
      ∀ entry, found = some entry ↔
        entry.1 = state ∧ m.get? A state = .ok (some entry.2) ∧ (R.colors entry.2).Nonempty := by
    obtain ⟨value, hvalue, haccept, _⟩ := h.get?_spec state
    cases value with
    | none => exact ⟨none, by simp [viewItem?, hvalue, pure, Except.pure], by simp [hvalue]⟩
    | some a =>
      obtain ⟨found, hfound, hiff⟩ := R.nonempty_spec (haccept a rfl)
      cases found with
      | false =>
        refine ⟨none, by simp [viewItem?, hvalue, hfound, pure, Except.pure], ?_⟩
        rintro ⟨other, b⟩
        simp only [reduceCtorEq, false_iff, hvalue, Except.ok.injEq, Option.some.injEq, not_and]
        rintro _ rfl
        rw [← hiff]
        simp
      | true =>
        refine ⟨some (state, a), by simp [viewItem?, hvalue, hfound, pure, Except.pure], ?_⟩
        rintro ⟨other, b⟩
        simp only [Option.some.injEq, Prod.mk.injEq, hvalue, Except.ok.injEq]
        constructor
        · rintro ⟨rfl, rfl⟩
          exact ⟨rfl, rfl, hiff.1 rfl⟩
        · rintro ⟨rfl, rfl, _⟩
          exact ⟨rfl, rfl⟩
  have hkept (state : Nat) (entry : Nat × C) : kept? (m.viewItem? A state) = some entry ↔
      entry.1 = state ∧ m.get? A state = .ok (some entry.2) ∧ (R.colors entry.2).Nonempty := by
    obtain ⟨found, hfound, hiff⟩ := hentry state
    rw [hfound, kept?_ok, hiff]
  refine ⟨_, filterMapM_eq_ok fun state _ => ?_, ⟨?_, ?_, ?_⟩, ?_⟩
  · obtain ⟨found, hfound, _⟩ := hentry state
    exact ⟨found, hfound⟩
  · refine InOrder.filterMap ?_ fun state _ entry hsome => ((hkept state entry).1 hsome).1
    rw [StateSet.toList_eq]
    exact pairwise_lt_range_filter _ _
  · intro state a hmem
    obtain ⟨other, _, hsome⟩ := List.mem_filterMap.1 hmem
    obtain ⟨rfl, hget, _⟩ := (hkept other _).1 hsome
    exact hget
  · intro state a hget hnonempty
    refine List.mem_filterMap.2 ⟨state, ?_, (hkept state _).2 ⟨rfl, hget, hnonempty⟩⟩
    obtain ⟨value, hvalue, _, hsome⟩ := h.get?_spec state
    rw [hget] at hvalue
    cases hvalue
    rw [StateSet.mem_toList, hdomain, ← hsome]
    rfl
  · intro state a hmem
    obtain ⟨other, _, hsome⟩ := List.mem_filterMap.1 hmem
    exact ((hkept other _).1 hsome).2.2

/-- The entries of a map are its values, in order; some that are empty may be left out. -/
theorem Valued.entries_spec {m : StateMap C} (h : m.Valued R) (haddressed : m.Addressed)
    (hsize : m.sizeHint ≤ Capacity.stateLimit) :
    ∃ entries, m.entries A = .ok entries ∧ m.Lists R entries := by
  have hpairs (states : List Nat) (value : C) (hstates : states.Pairwise (· < ·)) :
      InOrder (states.map (·, value)) := by
    rw [InOrder, List.map_map]
    simpa [Function.comp_def] using hstates
  have hview (domain : StateSet) (hdomain : ∀ state, domain.contains state = m.contains state) :
      ∃ entries, m.viewEntries A domain = .ok entries ∧ m.Lists R entries := by
    obtain ⟨entries, hentries, hlists, _⟩ := h.viewEntries_spec domain hdomain
    exact ⟨entries, hentries, hlists⟩
  cases m with
  | dense start values count =>
    refine ⟨_, denseEntries_spec haddressed, .of_eager ?_ ?_⟩
    · have horder := pairwise_slots values
      rw [InOrder, List.pairwise_map] at horder
      rw [InOrder, List.map_map, List.pairwise_map]
      exact horder.imp fun hlt => Nat.add_lt_add_left hlt start
    · intro state a
      simp only [get?, Except.ok.injEq, slot?_eq_some_iff, List.mem_map, Prod.mk.injEq, Prod.exists]
      constructor
      · rintro ⟨i, b, hslot, hi, rfl⟩
        exact ⟨i, hslot, hi⟩
      · rintro ⟨i, hslot, hi⟩
        exact ⟨i, a, hslot, hi, rfl⟩
  | sparse values count =>
    refine ⟨_, rfl, .of_eager ?_ ?_⟩
    · rw [InOrder, Std.TreeMap.map_fst_toList_eq_keys]
      exact values.ordered_keys.imp fun hlt => Nat.compare_eq_lt.1 hlt
    · intro state a
      rw [Std.TreeMap.mem_toList_iff_getElem?_eq_some, get?, Except.ok.injEq]
  | span range value count =>
    have hroom := reserve_entries A (show range.length ≤ Capacity.stateLimit from hsize)
    refine ⟨range.toList.map (·, value), by simp [entries, hroom, pure, Except.pure], .of_eager ?_ ?_⟩
    · exact hpairs _ _ List.pairwise_lt_range'
    · intro state a
      by_cases hin : range.contains state
      · simp [get?, hin, (Span.contains_iff range state).1 hin]
      · have hnot : ¬(range.start ≤ state ∧ state < range.stop) := by
          rwa [← Span.contains_iff]
        simp [get?, hin, hnot]
  | single only value count =>
    refine ⟨_, rfl, .of_eager (List.pairwise_singleton _ _) ?_⟩
    intro state a
    by_cases heq : state = only
    · simp [get?, heq, eq_comm]
    · simp [get?, heq]
  | empty count => exact ⟨[], rfl, .of_eager List.Pairwise.nil (by simp [get?])⟩
  | constant domain value =>
    refine ⟨_, rfl, .of_eager (hpairs _ _ ?_) ?_⟩
    · rw [StateSet.toList_eq]
      exact pairwise_lt_range_filter _ _
    · intro state a
      by_cases hin : domain.contains state
      · simp [get?, hin]
      · simp [get?, hin]
  | interView left right domain => exact hview domain fun _ => rfl
  | unionView left right domain => exact hview domain fun _ => rfl
  | diffView whole part domain => exact hview domain fun _ => rfl

theorem Fits.entries_spec {m : StateMap C} (h : m.Fits R n) (hn : n ≤ Capacity.stateLimit) :
    ∃ entries, m.entries A = .ok entries ∧ m.Lists R entries :=
  h.valued.entries_spec (h.addressed (le_bound_of_le_stateLimit hn)) ((h.sizeHint_le hn).trans hn)

end ColoredCtl.StateMap

import ColoredCtl.Proofs.State.Listing

namespace ColoredCtl.StateMap

open Color

variable {C : Type} {A : Algebra C} {R : Reading A} {n : Nat}

section Views

theorem Fits.colorsAt_interView {left right : StateMap C} {domain : StateSet}
    (h : (interView left right domain).Fits R n) (state : Nat) :
    (interView left right domain).colorsAt R state =
      left.colorsAt R state ∩ right.colorsAt R state := by
  obtain ⟨hleft, hright, _, hdomain⟩ := h
  obtain ⟨a, ha, haccept, hasome⟩ := hleft.get?_spec state
  obtain ⟨b, hb, hbccept, hbsome⟩ := hright.get?_spec state
  have hin := hdomain state
  rw [← hasome, ← hbsome] at hin
  rw [colorsAt_eq ha, colorsAt_eq hb]
  cases a with
  | none => simp [colorsAt, get?, hin, pure, Except.pure]
  | some x =>
    cases b with
    | none => simp [colorsAt, get?, hin, pure, Except.pure]
    | some y =>
      obtain ⟨r, hr, _, hcolors⟩ := R.inter_spec (haccept x rfl) (hbccept y rfl)
      simp [colorsAt, get?, hin, ha, hb, hr, hcolors, pure, Except.pure]

theorem Fits.colorsAt_unionView {left right : StateMap C} {domain : StateSet}
    (h : (unionView left right domain).Fits R n) (state : Nat) :
    (unionView left right domain).colorsAt R state =
      left.colorsAt R state ∪ right.colorsAt R state := by
  obtain ⟨hleft, hright, _, hdomain⟩ := h
  obtain ⟨a, ha, haccept, hasome⟩ := hleft.get?_spec state
  obtain ⟨b, hb, hbccept, hbsome⟩ := hright.get?_spec state
  have hin := hdomain state
  rw [← hasome, ← hbsome] at hin
  rw [colorsAt_eq ha, colorsAt_eq hb]
  obtain ⟨r, hr, _, hcolors, _⟩ := R.unionOpt_spec haccept hbccept
  cases hsome : a.isSome || b.isSome with
  | false =>
    rw [Bool.or_eq_false_iff, Option.isSome_eq_false_iff, Option.isSome_eq_false_iff,
      Option.isNone_iff_eq_none, Option.isNone_iff_eq_none] at hsome
    rw [hsome.1, hsome.2] at hin
    simp [colorsAt, get?, hin, hsome.1, hsome.2, pure, Except.pure]
  | true =>
    rw [hsome] at hin
    simp [colorsAt, get?, hin, ha, hb, hr, hcolors]

theorem Fits.colorsAt_diffView {whole part : StateMap C} {domain : StateSet}
    (h : (diffView whole part domain).Fits R n) (state : Nat) :
    (diffView whole part domain).colorsAt R state =
      whole.colorsAt R state \ part.colorsAt R state := by
  obtain ⟨hwhole, hpart, _, hdomain⟩ := h
  obtain ⟨a, ha, haccept, hasome⟩ := hwhole.get?_spec state
  obtain ⟨b, hb, hbccept, _⟩ := hpart.get?_spec state
  have hin := hdomain state
  rw [← hasome] at hin
  rw [colorsAt_eq ha, colorsAt_eq hb]
  cases a with
  | none => simp [colorsAt, get?, hin, pure, Except.pure]
  | some x =>
    cases b with
    | none => simp [colorsAt, get?, hin, ha, hb, pure, Except.pure]
    | some y =>
      obtain ⟨r, hr, _, hcolors⟩ := R.diff_spec (haccept x rfl) (hbccept y rfl)
      simp [colorsAt, get?, hin, ha, hb, hr, hcolors, pure, Except.pure]

/-- The intersection of two maps over one space can be made, and intersects their colors. -/
theorem Fits.inter_spec {m k : StateMap C} (hm : m.Fits R n) (hk : k.Fits R n)
    (hn : n ≤ Word.bound) :
    ∃ r, m.inter k = .ok r ∧ r.Fits R n ∧
      (∀ state, r.contains state = (m.contains state && k.contains state)) ∧
      ∀ state, r.colorsAt R state = m.colorsAt R state ∩ k.colorsAt R state := by
  obtain ⟨a, ha, hacount, hacontains⟩ := hm.domain_spec hn
  obtain ⟨b, hb, hbcount, hbcontains⟩ := hk.domain_spec hn
  obtain ⟨d, hd, hdcount, hdcontains⟩ := StateSet.inter_spec (hacount.trans hbcount.symm)
  have hcontains (state : Nat) : d.contains state = (m.contains state && k.contains state) := by
    rw [hdcontains, hacontains, hbcontains]
  have hfits : (interView m k d).Fits R n := ⟨hm, hk, hdcount.trans hacount, hcontains⟩
  refine ⟨_, ?_, hfits, hcontains, hfits.colorsAt_interView⟩
  simp [StateMap.inter, ha, hb, hd, pure, Except.pure]

/-- The union of two maps over one space can be made, and unites their colors. -/
theorem Fits.union_spec {m k : StateMap C} (hm : m.Fits R n) (hk : k.Fits R n)
    (hn : n ≤ Word.bound) :
    ∃ r, m.union k = .ok r ∧ r.Fits R n ∧
      (∀ state, r.contains state = (m.contains state || k.contains state)) ∧
      ∀ state, r.colorsAt R state = m.colorsAt R state ∪ k.colorsAt R state := by
  obtain ⟨a, ha, hacount, hacontains⟩ := hm.domain_spec hn
  obtain ⟨b, hb, hbcount, hbcontains⟩ := hk.domain_spec hn
  obtain ⟨d, hd, hdcount, hdcontains⟩ := StateSet.union_spec (hacount.trans hbcount.symm)
  have hcontains (state : Nat) : d.contains state = (m.contains state || k.contains state) := by
    rw [hdcontains, hacontains, hbcontains]
  have hfits : (unionView m k d).Fits R n := ⟨hm, hk, hdcount.trans hacount, hcontains⟩
  refine ⟨_, ?_, hfits, hcontains, hfits.colorsAt_unionView⟩
  simp [StateMap.union, ha, hb, hd, pure, Except.pure]

/-- The difference of two maps over one space can be made, and takes the colors of the second from
those of the first. -/
theorem Fits.diff_spec {m k : StateMap C} (hm : m.Fits R n) (hk : k.Fits R n)
    (hn : n ≤ Word.bound) :
    ∃ r, m.diff k = .ok r ∧ r.Fits R n ∧ (∀ state, r.contains state = m.contains state) ∧
      ∀ state, r.colorsAt R state = m.colorsAt R state \ k.colorsAt R state := by
  obtain ⟨d, hd, hdcount, hdcontains⟩ := hm.domain_spec hn
  have hfits : (diffView m k d).Fits R n := ⟨hm, hk, hdcount, hdcontains⟩
  refine ⟨_, ?_, hfits, hdcontains, hfits.colorsAt_diffView⟩
  simp [StateMap.diff, hd, pure, Except.pure]

end Views

section Leaves

theorem colorsAt_constant (domain : StateSet) (value : C) (state : Nat) :
    (constant domain value).colorsAt R state =
      if domain.contains state then R.colors value else ∅ := by
  by_cases h : domain.contains state <;> simp [colorsAt, get?, h]

theorem colorsAt_single (only : Nat) (value : C) (count state : Nat) :
    (single only value count).colorsAt R state = if state = only then R.colors value else ∅ := by
  by_cases h : state = only <;> simp [colorsAt, get?, h]

@[simp] theorem colorsAt_empty (count state : Nat) : (empty count : StateMap C).colorsAt R state = ∅ := rfl

end Leaves

section Entries

/-- Looking up a table that was filled from a list of entries with different states. -/
theorem getElem?_foldl_insert {entries : List (Nat × C)} (h : (entries.map (·.1)).Nodup)
    (values : Std.TreeMap Nat C) (state : Nat) (a : C) :
    (entries.foldl (fun m (state, value) => m.insert state value) values)[state]? = some a ↔
      (state, a) ∈ entries ∨ (state ∉ entries.map (·.1) ∧ values[state]? = some a) := by
  induction entries generalizing values with
  | nil => simp
  | cons entry rest ih =>
    obtain ⟨first, b⟩ := entry
    rw [List.map_cons, List.nodup_cons] at h
    rw [List.foldl_cons, ih h.2, Std.TreeMap.getElem?_insert]
    by_cases heq : first = state
    · subst heq
      have hnot : (first, a) ∉ rest := fun hmem => h.1 (List.mem_map.2 ⟨_, hmem, rfl⟩)
      simp [hnot, h.1, eq_comm]
    · simp [heq, Ne.symm heq]

/-- A map made from entries with different states has these entries as its values. -/
theorem get?_ofEntries {entries : List (Nat × C)} (hkeys : (entries.map (·.1)).Nodup) {state : Nat} {a : C} :
    (ofEntries entries n).get? A state = .ok (some a) ↔ (state, a) ∈ entries := by
  rw [ofEntries, get?, Except.ok.injEq, getElem?_foldl_insert hkeys]
  simp

theorem ofEntries_spec {entries : List (Nat × C)} (hkeys : (entries.map (·.1)).Nodup)
    (h : ∀ state a, (state, a) ∈ entries → state < n ∧ R.InDomain a) :
    (ofEntries entries n).Fits R n ∧
      ∀ state a, (ofEntries entries n).get? A state = .ok (some a) ↔ (state, a) ∈ entries := by
  refine ⟨⟨rfl, ?_⟩, fun state a => get?_ofEntries hkeys⟩
  intro state a hvalue
  exact h state a ((get?_ofEntries (A := A) (n := n) hkeys).1 (congrArg Except.ok hvalue))

theorem mem_colorsAt_iff {m : StateMap C} {state c : Nat} :
    c ∈ m.colorsAt R state ↔ ∃ a, m.get? A state = .ok (some a) ∧ c ∈ R.colors a := by
  unfold colorsAt
  split
  · next value hvalue =>
    cases value with
    | none => simp [hvalue]
    | some a => simp [hvalue]
  · next cause hcause => simp [hcause]

theorem Fits.contains_iff {m : StateMap C} (h : m.Fits R n) {state : Nat} :
    m.contains state = true ↔ ∃ a, m.get? A state = .ok (some a) := by
  obtain ⟨value, hvalue, _, hsome⟩ := h.get?_spec state
  rw [← hsome, Option.isSome_iff_exists, hvalue]
  simp

theorem Valued.inDomain {m : StateMap C} (h : m.Valued R) {state : Nat} {a : C}
    (ha : m.get? A state = .ok (some a)) : R.InDomain a := by
  obtain ⟨value, hvalue, haccept, _⟩ := h.get?_spec state
  rw [ha] at hvalue
  cases hvalue
  exact haccept a rfl

theorem Fits.inDomain {m : StateMap C} (h : m.Fits R n) {state : Nat} {a : C}
    (ha : m.get? A state = .ok (some a)) : R.InDomain a :=
  h.valued.inDomain ha

/-- The copy of the values that are not empty: the table of their list, which is in order. A table of
that size is asked for first. -/
theorem Valued.materialize_eq {m : StateMap C} (h : m.Valued R) {entries : List (Nat × C)}
    (hentries : m.entries A = .ok entries) (hlists : m.Lists R entries) :
    ∃ kept, (m.materialize A = do Capacity.reserveTable m.sizeHint; return ofEntries kept m.stateCount) ∧
      InOrder kept ∧
      ∀ state a, (state, a) ∈ kept ↔ m.get? A state = .ok (some a) ∧ (R.colors a).Nonempty := by
  have hrun := foldlM_run (l := entries) (s := (∅ : Std.TreeMap Nat C))
    (f := fun kept (entry : Nat × C) => (do
      if ← A.nonempty entry.2 then return kept.insert entry.1 entry.2 else return kept :
        Except Misuse (Std.TreeMap Nat C)))
    (fun done table => table = (done.filter fun entry => decide (R.colors entry.2).Nonempty).foldl
      (fun m (state, value) => m.insert state value) ∅)
    rfl ?_
  · obtain ⟨table, htable, rfl⟩ := hrun
    refine ⟨entries.filter fun entry => decide (R.colors entry.2).Nonempty, ?_, ?_, ?_⟩
    · rw [materialize, foldEntries_eq (fun _ => rfl) hentries]
      exact bind_congr fun _ => bind_eq_ok_iff.2 ⟨_, htable, rfl⟩
    · exact List.pairwise_map.2 ((List.pairwise_map.1 hlists.inOrder).filter _)
    · intro state a
      rw [List.mem_filter, decide_eq_true_iff]
      exact ⟨fun hin => ⟨hlists.get?_eq hin.1, hin.2⟩,
        fun hin => ⟨hlists.mem_of_nonempty hin.1 hin.2, hin.2⟩⟩
  · rintro done ⟨state, a⟩ rest table hsplit rfl
    have hmem : (state, a) ∈ entries := by simp [hsplit]
    obtain ⟨found, hfound, hiff⟩ := R.nonempty_spec (h.inDomain (hlists.get?_eq hmem))
    obtain rfl : found = decide (R.colors a).Nonempty := Bool.eq_iff_iff.2 (by rw [hiff, decide_eq_true_iff])
    by_cases hnonempty : (R.colors a).Nonempty
    · simp [hfound, hnonempty, pure, Except.pure]
    · simp [hfound, hnonempty, pure, Except.pure]

theorem Fits.materialize_spec {m : StateMap C} (h : m.Fits R n) (hn : n ≤ Capacity.tableLimit) :
    ∃ kept, m.materialize A = .ok (ofEntries kept n) ∧ InOrder kept ∧
      ∀ state a, (state, a) ∈ kept ↔ m.get? A state = .ok (some a) ∧ (R.colors a).Nonempty := by
  have hlimit := hn.trans Capacity.tableLimit_le_stateLimit
  obtain ⟨entries, hentries, hlists⟩ := h.entries_spec hlimit
  obtain ⟨kept, hkept, horder, hmem⟩ := h.valued.materialize_eq hentries hlists
  have hroom : Capacity.reserveTable m.sizeHint = .ok () :=
    Capacity.reserveTable_eq_ok_iff.2 ((h.sizeHint_le hlimit).trans hn)
  rw [hroom, h.stateCount_eq] at hkept
  exact ⟨kept, hkept, horder, hmem⟩

end Entries

end ColoredCtl.StateMap

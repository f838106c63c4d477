import ColoredCtl.Proofs.State.Growth

/-!
Values at some states, described by their colors.

A map, or a list of entries, is described by a relation between states and colors, and by a
condition on the states at which there may be values. Most results are put together by going through
a list of items that stand for different states, and keeping a value for some of them.
-/

namespace ColoredCtl

open Color

variable {C : Type} {A : Algebra C}

/-- The map has, at each state, the colors that a relation says, and values only at states that meet
a condition. -/
structure StateMap.Shows (R : Reading A) (n : Nat) (D : Nat → Prop) (Φ : Nat → Nat → Prop)
    (m : StateMap C) : Prop where
  fits : m.Fits R n
  within : ∀ {s}, m.contains s = true → D s
  mem_iff : ∀ {s c}, c ∈ m.colorsAt R s ↔ Φ s c

/-- The entries have, together, the colors that a relation says, and are only for states that meet a
condition. -/
structure Gathered (R : Reading A) (D : Nat → Prop) (Φ : Nat → Nat → Prop) (entries : Packet C) :
    Prop where
  within : ∀ {s a}, (s, a) ∈ entries → D s
  inDomain : ∀ {s a}, (s, a) ∈ entries → R.InDomain a
  mem_iff : ∀ {s c}, (∃ a, (s, a) ∈ entries ∧ c ∈ R.colors a) ↔ Φ s c

/-- The entries are also in order, so that there is one for each state. -/
structure Listed (R : Reading A) (D : Nat → Prop) (Φ : Nat → Nat → Prop) (entries : Packet C) :
    Prop extends Gathered R D Φ entries where
  inOrder : InOrder entries

/-- What is found for a state, if anything, is a value with the given colors. -/
structure Finds (R : Reading A) (s : Nat) (Φ : Nat → Prop) (found : Option (Nat × C)) : Prop where
  state_eq : ∀ {entry}, found = some entry → entry.1 = s
  inDomain : ∀ {entry}, found = some entry → R.InDomain entry.2
  mem_iff : ∀ {c}, (∃ entry, found = some entry ∧ c ∈ R.colors entry.2) ↔ Φ c

variable {R : Reading A} {n : Nat} {D : Nat → Prop} {Φ : Nat → Nat → Prop}

theorem Finds.of_value {s : Nat} {v : Option C} {Ψ : Nat → Prop} (haccepts : R.Accepts v)
    (hcolors : ∀ c, c ∈ R.colorsOf v ↔ Ψ c) : Finds R s Ψ (v.map (s, ·)) := by
  cases v with
  | none =>
    refine ⟨by simp, by simp, ?_⟩
    intro c
    simp [← hcolors]
  | some a =>
    refine ⟨by simp, ?_, ?_⟩
    · rintro entry hentry
      cases hentry
      exact haccepts a rfl
    · intro c
      simp [← hcolors]

/-- A value that is kept if it has a color. -/
theorem Finds.of_nonempty {a : C} (ha : R.InDomain a) (s : Nat) :
    ∃ found, A.nonempty a = .ok found ∧
      Finds R s (· ∈ R.colors a) (if found then some (s, a) else none) := by
  obtain ⟨found, hfound, hiff⟩ := R.nonempty_spec ha
  refine ⟨found, hfound, ?_⟩
  cases found with
  | false =>
    refine .of_value (v := none) R.accepts_none ?_
    intro c
    have hempty : R.colors a = ∅ := by
      rw [← Finset.not_nonempty_iff_eq_empty, ← hiff]
      simp
    simp [hempty]
  | true => exact .of_value (R.accepts_some ha) fun c => Iff.rfl

theorem Finds.congr {s : Nat} {found : Option (Nat × C)} {Ψ Ψ' : Nat → Prop} (h : Finds R s Ψ found)
    (hΨ : ∀ c, Ψ c ↔ Ψ' c) : Finds R s Ψ' found :=
  ⟨h.state_eq, h.inDomain, fun {_} => h.mem_iff.trans (hΨ _)⟩

/-- Going through items that stand for states, and keeping what is found for each. The entries are in
the order of the items. -/
theorem gather_spec {ε α : Type} {l : List α} {k : α → Nat} {Ψ : α → Nat → Prop}
    {f : α → Except ε (Option (Nat × C))}
    (hf : ∀ x ∈ l, ∃ found, f x = .ok found ∧ Finds R (k x) (Ψ x) found) :
    ∃ entries, l.filterMapM f = .ok entries ∧
      Gathered R (fun s => ∃ x ∈ l, k x = s) (fun s c => ∃ x ∈ l, k x = s ∧ Ψ x c) entries ∧
      ((l.Pairwise fun x y => k x < k y) → InOrder entries) := by
  have hkept : ∀ x ∈ l, Finds R (k x) (Ψ x) (kept? (f x)) := by
    intro x hx
    obtain ⟨found, hfound, hfinds⟩ := hf x hx
    rw [hfound, kept?_ok]
    exact hfinds
  have hmem : ∀ {s a}, (s, a) ∈ l.filterMap (fun x => kept? (f x)) ↔
      ∃ x ∈ l, k x = s ∧ kept? (f x) = some (s, a) := by
    intro s a
    rw [List.mem_filterMap]
    constructor
    · rintro ⟨x, hx, hsome⟩
      exact ⟨x, hx, ((hkept x hx).state_eq hsome).symm, hsome⟩
    · rintro ⟨x, hx, _, hsome⟩
      exact ⟨x, hx, hsome⟩
  refine ⟨_, filterMapM_eq_ok fun x hx => ?_, ⟨?_, ?_, ?_⟩, ?_⟩
  · obtain ⟨found, hfound, _⟩ := hf x hx
    exact ⟨found, hfound⟩
  · intro s a hsa
    obtain ⟨x, hx, hk, _⟩ := hmem.1 hsa
    exact ⟨x, hx, hk⟩
  · intro s a hsa
    obtain ⟨x, hx, _, hsome⟩ := hmem.1 hsa
    exact (hkept x hx).inDomain hsome
  · intro s c
    constructor
    · rintro ⟨a, hsa, hc⟩
      obtain ⟨x, hx, hk, hsome⟩ := hmem.1 hsa
      exact ⟨x, hx, hk, (hkept x hx).mem_iff.1 ⟨_, hsome, hc⟩⟩
    · rintro ⟨x, hx, rfl, hΨ⟩
      obtain ⟨⟨s, a⟩, hsome, hc⟩ := (hkept x hx).mem_iff.2 hΨ
      obtain rfl : s = k x := (hkept x hx).state_eq hsome
      exact ⟨a, hmem.2 ⟨x, hx, rfl, hsome⟩, hc⟩
  · intro hl
    exact InOrder.filterMap hl fun x hx entry hsome => (hkept x hx).state_eq hsome

/-- Going through items that stand for increasing states. -/
theorem select_spec {ε α : Type} {l : List α} {k : α → Nat} {Ψ : α → Nat → Prop}
    {f : α → Except ε (Option (Nat × C))} (hl : l.Pairwise fun x y => k x < k y)
    (hf : ∀ x ∈ l, ∃ found, f x = .ok found ∧ Finds R (k x) (Ψ x) found) :
    ∃ entries, l.filterMapM f = .ok entries ∧
      Listed R (fun s => ∃ x ∈ l, k x = s) (fun s c => ∃ x ∈ l, k x = s ∧ Ψ x c) entries := by
  obtain ⟨entries, hentries, hgathered, horder⟩ := gather_spec hf
  exact ⟨entries, hentries, hgathered, horder hl⟩

theorem Gathered.perm {entries entries' : Packet C} (h : Gathered R D Φ entries)
    (hperm : entries'.Perm entries) : Gathered R D Φ entries' := by
  refine ⟨fun hsa => h.within (hperm.mem_iff.1 hsa), fun hsa => h.inDomain (hperm.mem_iff.1 hsa), ?_⟩
  simp only [hperm.mem_iff]
  exact h.mem_iff

theorem Gathered.congr {entries : Packet C} {D' : Nat → Prop} {Φ' : Nat → Nat → Prop}
    (h : Gathered R D Φ entries) (hD : ∀ s, D s → D' s) (hΦ : ∀ s c, Φ s c ↔ Φ' s c) :
    Gathered R D' Φ' entries :=
  ⟨fun hmem => hD _ (h.within hmem), h.inDomain, fun {_ _} => h.mem_iff.trans (hΦ _ _)⟩

/-- The description of a list may be replaced by an equivalent one. -/
theorem Listed.congr {entries : Packet C} {D' : Nat → Prop} {Φ' : Nat → Nat → Prop}
    (h : Listed R D Φ entries) (hD : ∀ s, D s → D' s) (hΦ : ∀ s c, Φ s c ↔ Φ' s c) :
    Listed R D' Φ' entries :=
  ⟨h.toGathered.congr hD hΦ, h.inOrder⟩

theorem Listed.nodup {entries : Packet C} (h : Listed R D Φ entries) :
    (entries.map (·.1)).Nodup :=
  h.inOrder.imp Nat.ne_of_lt

/-- The value listed for a state has all its colors. -/
theorem Listed.mem_colors_iff {entries : Packet C} (h : Listed R D Φ entries) {s c : Nat} {a : C}
    (ha : (s, a) ∈ entries) : c ∈ R.colors a ↔ Φ s c := by
  rw [← h.mem_iff]
  constructor
  · intro hc
    exact ⟨a, ha, hc⟩
  · rintro ⟨b, hb, hc⟩
    cases List.inj_on_of_nodup_map h.nodup ha hb rfl
    exact hc

/-- The map of entries for different states has their colors. -/
theorem Gathered.ofEntries {entries : Packet C} (h : Gathered R D Φ entries)
    (hnodup : (entries.map (·.1)).Nodup) (hD : ∀ s, D s → s < n) :
    (StateMap.ofEntries entries n).Shows R n D Φ := by
  obtain ⟨hfits, hget⟩ := StateMap.ofEntries_spec (R := R) (n := n) hnodup
    fun s a hmem => ⟨hD s (h.within hmem), h.inDomain hmem⟩
  refine ⟨hfits, ?_, ?_⟩
  · intro s hs
    obtain ⟨a, ha⟩ := hfits.contains_iff.1 hs
    exact h.within ((hget s a).1 ha)
  · intro s c
    rw [StateMap.mem_colorsAt_iff, ← h.mem_iff]
    simp only [hget]

namespace StateMap.Shows

theorem congr {m : StateMap C} {D' : Nat → Prop} {Φ' : Nat → Nat → Prop} (h : m.Shows R n D Φ)
    (hD : ∀ s, D s → D' s) (hΦ : ∀ s c, Φ s c ↔ Φ' s c) : m.Shows R n D' Φ' :=
  ⟨h.fits, fun hs => hD _ (h.within hs), fun {_ _} => h.mem_iff.trans (hΦ _ _)⟩

/-- A shown color stands at a state where there may be a value, and belongs to the domain. -/
theorem within_of_mem {m : StateMap C} (h : m.Shows R n D Φ) {s c : Nat} (hc : Φ s c) :
    D s ∧ s < n ∧ c ∈ R.palette := by
  have hmem := h.mem_iff.2 hc
  have hs := h.fits.contains_of_mem hmem
  exact ⟨h.within hs, h.fits.lt_of_contains hs, h.fits.colorsAt_subset s hmem⟩

theorem get?_spec {m : StateMap C} (h : m.Shows R n D Φ) (s : Nat) :
    ∃ value, m.get? A s = .ok value ∧ R.Accepts value ∧ ∀ c, c ∈ R.colorsOf value ↔ Φ s c := by
  obtain ⟨value, hvalue, haccepts, _⟩ := h.fits.get?_spec s
  refine ⟨value, hvalue, haccepts, ?_⟩
  intro c
  rw [← h.mem_iff, StateMap.colorsAt_eq hvalue]

/-- The states of a map, in order: those where it has a value. -/
theorem states_spec {m : StateMap C} (h : m.Shows R n D Φ) (hn : n ≤ Capacity.stateLimit) :
    ∃ states, m.states = .ok states ∧ states.Pairwise (· < ·) ∧
      (∀ s ∈ states, D s ∧ s < n) ∧ ∀ {s c}, Φ s c → s ∈ states := by
  refine ⟨_, h.fits.states_spec hn, pairwise_lt_range_filter _ _, ?_, ?_⟩
  · intro s hs
    obtain ⟨hlt, hcontains⟩ := List.mem_filter.1 hs
    exact ⟨h.within hcontains, List.mem_range.1 hlt⟩
  · intro s c hc
    have hcontains := h.fits.contains_of_mem (h.mem_iff.2 hc)
    exact List.mem_filter.2 ⟨List.mem_range.2 (h.fits.lt_of_contains hcontains), hcontains⟩

/-- The entries of a map list what it shows. -/
theorem entries_spec {m : StateMap C} (h : m.Shows R n D Φ) (hn : n ≤ Capacity.stateLimit) :
    ∃ entries, m.entries A = .ok entries ∧ Listed R D Φ entries := by
  obtain ⟨entries, hentries, hlists⟩ := h.fits.entries_spec hn
  refine ⟨entries, hentries, ⟨?_, ?_, ?_⟩, hlists.inOrder⟩
  · intro s a hmem
    exact h.within (h.fits.contains_iff.2 ⟨a, hlists.get?_eq hmem⟩)
  · intro s a hmem
    exact h.fits.inDomain (hlists.get?_eq hmem)
  · intro s c
    rw [← h.mem_iff, StateMap.mem_colorsAt_iff]
    constructor
    · rintro ⟨a, hmem, hc⟩
      exact ⟨a, hlists.get?_eq hmem, hc⟩
    · rintro ⟨a, hget, hc⟩
      exact ⟨a, hlists.mem_of_nonempty hget ⟨c, hc⟩, hc⟩

section Views

variable {m k : StateMap C} {D' : Nat → Prop} {Φ' : Nat → Nat → Prop}

theorem inter_spec (hm : m.Shows R n D Φ) (hk : k.Shows R n D' Φ') (hn : n ≤ Capacity.stateLimit) :
    ∃ r, m.inter k = .ok r ∧ r.Shows R n (fun s => D s ∧ D' s) fun s c => Φ s c ∧ Φ' s c := by
  obtain ⟨r, hr, hfits, hcontains, hcolors⟩ := hm.fits.inter_spec hk.fits (StateMap.le_bound_of_le_stateLimit hn)
  refine ⟨r, hr, hfits, ?_, ?_⟩
  · intro s hs
    rw [hcontains, Bool.and_eq_true] at hs
    exact ⟨hm.within hs.1, hk.within hs.2⟩
  · intro s c
    rw [hcolors, Finset.mem_inter, hm.mem_iff, hk.mem_iff]

theorem union_spec (hm : m.Shows R n D Φ) (hk : k.Shows R n D Φ') (hn : n ≤ Capacity.stateLimit) :
    ∃ r, m.union k = .ok r ∧ r.Shows R n D fun s c => Φ s c ∨ Φ' s c := by
  obtain ⟨r, hr, hfits, hcontains, hcolors⟩ := hm.fits.union_spec hk.fits (StateMap.le_bound_of_le_stateLimit hn)
  refine ⟨r, hr, hfits, ?_, ?_⟩
  · intro s hs
    rw [hcontains, Bool.or_eq_true] at hs
    exact hs.elim hm.within hk.within
  · intro s c
    rw [hcolors, Finset.mem_union, hm.mem_iff, hk.mem_iff]

theorem diff_spec (hm : m.Shows R n D Φ) (hk : k.Shows R n D' Φ') (hn : n ≤ Capacity.stateLimit) :
    ∃ r, m.diff k = .ok r ∧ r.Shows R n D fun s c => Φ s c ∧ ¬Φ' s c := by
  obtain ⟨r, hr, hfits, hcontains, hcolors⟩ := hm.fits.diff_spec hk.fits (StateMap.le_bound_of_le_stateLimit hn)
  refine ⟨r, hr, hfits, ?_, ?_⟩
  · intro s hs
    rw [hcontains] at hs
    exact hm.within hs
  · intro s c
    rw [hcolors, Finset.mem_sdiff, hm.mem_iff, hk.mem_iff]

end Views

end StateMap.Shows

/-- A growing map, as it is now, shows the colors it has. -/
theorem Accumulator.Fits.freeze_shows {acc : Accumulator C} (h : acc.Fits R n)
    (hΦ : ∀ s c, c ∈ acc.colorsAt R s ↔ Φ s c) (hD : ∀ s c, Φ s c → D s) :
    acc.freeze.Shows R n D Φ := by
  refine ⟨h.freeze_fits, ?_, ?_⟩
  · intro s hs
    obtain ⟨c, hc⟩ := (h.contains_freeze s).1 hs
    exact hD s c ((hΦ s c).1 hc)
  · intro s c
    rw [Accumulator.colorsAt_freeze, hΦ]

end ColoredCtl

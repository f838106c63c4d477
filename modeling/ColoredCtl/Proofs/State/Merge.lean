import ColoredCtl.Proofs.State.Selection
import Mathlib.Data.List.FinRange

namespace ColoredCtl.StateMap

open Color

variable {C : Type} {A : Algebra C} {R : Reading A} {n : Nat}

section Tables

variable {m k : StateMap C} {D : Nat → Prop} {Φ : Nat → Nat → Prop}

/-- The map is the table of a list in order: of the states that have a color, with their values. -/
def Tabulates (R : Reading A) (n : Nat) (Φ : Nat → Nat → Prop) (m : StateMap C) : Prop :=
  ∃ entries, m = ofEntries entries n ∧ Listed R (fun s => s < n ∧ ∃ c, Φ s c) Φ entries

theorem Tabulates.shows (h : m.Tabulates R n Φ) : m.Shows R n (fun s => ∃ c, Φ s c) Φ := by
  obtain ⟨entries, rfl, hlisted⟩ := h
  have hshows := hlisted.ofEntries hlisted.nodup fun s hs => hs.1
  exact hshows.congr (fun s hs => hs.2) fun s c => Iff.rfl

theorem Tabulates.congr {Φ' : Nat → Nat → Prop} (h : m.Tabulates R n Φ) (hΦ : ∀ s c, Φ s c ↔ Φ' s c) :
    m.Tabulates R n Φ' := by
  obtain ⟨entries, rfl, hlisted⟩ := h
  refine ⟨entries, rfl, hlisted.congr ?_ hΦ⟩
  rintro s ⟨hs, c, hc⟩
  exact ⟨hs, c, (hΦ s c).1 hc⟩

/-- There is one table of the same colors, if the values tell them apart. -/
theorem Tabulates.unique (hR : R.Faithful) (hm : m.Tabulates R n Φ) (hk : k.Tabulates R n Φ) : m = k := by
  have hsub {l l' : Packet C} (hl : Listed R (fun s => s < n ∧ ∃ c, Φ s c) Φ l)
      (hl' : Listed R (fun s => s < n ∧ ∃ c, Φ s c) Φ l') {x : Nat × C} (hx : x ∈ l) : x ∈ l' := by
    obtain ⟨s, a⟩ := x
    obtain ⟨_, c, hc⟩ := hl.within hx
    obtain ⟨b, hb, _⟩ := hl'.mem_iff.2 hc
    have hsame : a = b := by
      refine hR (hl.inDomain hx) (hl'.inDomain hb) (Finset.ext fun d => ?_)
      rw [hl.mem_colors_iff hx, hl'.mem_colors_iff hb]
    exact hsame ▸ hb
  obtain ⟨l, rfl, hl⟩ := hm
  obtain ⟨l', rfl, hl'⟩ := hk
  rw [hl.inOrder.ext hl'.inOrder fun x => ⟨hsub hl hl', hsub hl' hl⟩]

/-- The copy of a map without empty values contains the states that have a color. -/
theorem Shows.materialize_spec (h : m.Shows R n D Φ) (hn : n ≤ Capacity.tableLimit) :
    ∃ r, m.materialize A = .ok r ∧ r.Tabulates R n Φ := by
  obtain ⟨kept, hkept, horder, hmem⟩ := h.fits.materialize_spec hn
  refine ⟨ofEntries kept n, hkept, kept, rfl, ⟨?_, ?_, ?_⟩, horder⟩
  · intro s a ha
    obtain ⟨hget, c, hc⟩ := (hmem s a).1 ha
    have hs := h.mem_iff.1 (mem_colorsAt_iff.2 ⟨a, hget, hc⟩)
    exact ⟨(h.within_of_mem hs).2.1, c, hs⟩
  · intro s a ha
    exact h.fits.inDomain ((hmem s a).1 ha).1
  · intro s c
    rw [← h.mem_iff, mem_colorsAt_iff]
    constructor
    · rintro ⟨a, ha, hc⟩
      exact ⟨a, ((hmem s a).1 ha).1, hc⟩
    · rintro ⟨a, hget, hc⟩
      exact ⟨a, (hmem s a).2 ⟨hget, c, hc⟩, hc⟩

end Tables

section Merge

variable {K : Nat} {maps : Fin K → StateMap C} {Φ : Fin K → Nat → Nat → Prop}

/-- The states of maps without common states are not more than the states of the space. -/
theorem sizeHints_spec (hn : n ≤ Capacity.tableLimit)
    (hmaps : ∀ i, (maps i).Shows R n (fun s => ∃ c, Φ i s c) (Φ i))
    (hdisjoint : ∀ {i j s c d}, Φ i s c → Φ j s d → i = j) :
    ∃ total, (List.ofFn maps).foldlM (fun total m => Word.add total m.sizeHint) 0 = .ok total ∧
      total ≤ Capacity.tableLimit := by
  have hlimit := hn.trans Capacity.tableLimit_le_stateLimit
  let states := fun i => (List.range n).filter (maps i).contains
  have hnodup : ((List.finRange K).flatMap states).Nodup := by
    rw [List.nodup_flatMap]
    refine ⟨fun i _ => List.nodup_range.filter _, (List.nodup_finRange K).imp ?_⟩
    intro i j hne s hs hs'
    obtain ⟨c, hc⟩ := (hmaps i).within (List.mem_filter.1 hs).2
    obtain ⟨d, hd⟩ := (hmaps j).within (List.mem_filter.1 hs').2
    exact hne (hdisjoint hc hd)
  have hlength : ((List.finRange K).flatMap states).length ≤ n := by
    have hsub : (List.finRange K).flatMap states ⊆ List.range n := by
      intro s hs
      obtain ⟨i, _, hi⟩ := List.mem_flatMap.1 hs
      exact (List.mem_filter.1 hi).1
    exact (hnodup.subperm hsub).length_le.trans_eq List.length_range
  have hrun : ∃ total, (List.ofFn maps).foldlM (fun total m => Word.add total m.sizeHint) 0 =
      .ok total ∧ total = ((List.finRange K).flatMap states).length := by
    rw [List.ofFn_eq_map, List.foldlM_map]
    apply foldlM_run (fun done total => total = (done.flatMap states).length) rfl
    rintro done i rest total hsplit rfl
    have hsize : (maps i).sizeHint = (states i).length := (hmaps i).fits.sizeHint_eq hlimit
    have hpart : (done.flatMap states).length + (states i).length ≤
        ((List.finRange K).flatMap states).length := by
      rw [hsplit]
      simp only [List.flatMap_append, List.flatMap_cons, List.length_append]
      omega
    refine ⟨_, Word.add_eq_ok_iff.2 ⟨rfl, ?_⟩, ?_⟩
    · rw [hsize]
      exact Nat.lt_of_le_of_lt ((hpart.trans hlength).trans hn) (by decide)
    · simp [hsize]
  obtain ⟨total, htotal, heq⟩ := hrun
  exact ⟨total, htotal, heq ▸ hlength.trans hn⟩

/-- Maps without common states, put together. -/
theorem merge_spec (hn : n ≤ Capacity.tableLimit)
    (hmaps : ∀ i, (maps i).Shows R n (fun s => ∃ c, Φ i s c) (Φ i))
    (hdisjoint : ∀ {i j s c d}, Φ i s c → Φ j s d → i = j) :
    ∃ m, StateMap.merge A (List.ofFn maps) n = .ok m ∧
      m.Shows R n (fun s => ∃ c i, Φ i s c) fun s c => ∃ i, Φ i s c := by
  obtain ⟨total, htotal, hlimit⟩ := sizeHints_spec hn hmaps hdisjoint
  choose entries hentries hlisted using fun i => (hmaps i).entries_spec (hn.trans Capacity.tableLimit_le_stateLimit)
  have hall : (List.ofFn maps).mapM (·.entries A) = .ok (List.ofFn entries) := by
    rw [List.ofFn_eq_map, List.mapM_map, List.ofFn_eq_map]
    exact mapM_eq_ok fun i _ => hentries i
  have hmem : ∀ {x}, x ∈ (List.ofFn entries).flatten ↔ ∃ i, x ∈ entries i := by
    intro x
    rw [List.ofFn_eq_map, ← List.flatMap_def]
    simp
  have hgathered : Gathered R (fun s => ∃ c i, Φ i s c) (fun s c => ∃ i, Φ i s c)
      (List.ofFn entries).flatten := by
    refine ⟨?_, ?_, ?_⟩
    · intro s a hsa
      obtain ⟨i, hi⟩ := hmem.1 hsa
      obtain ⟨c, hc⟩ := (hlisted i).within hi
      exact ⟨c, i, hc⟩
    · intro s a hsa
      obtain ⟨i, hi⟩ := hmem.1 hsa
      exact (hlisted i).inDomain hi
    · intro s c
      simp only [hmem, ← (hlisted _).mem_iff]
      constructor
      · rintro ⟨a, ⟨i, hi⟩, hc⟩
        exact ⟨i, a, hi, hc⟩
      · rintro ⟨i, a, hi, hc⟩
        exact ⟨a, ⟨i, hi⟩, hc⟩
  have hnodup : ((List.ofFn entries).flatten.map (·.1)).Nodup := by
    rw [List.ofFn_eq_map, ← List.flatMap_def, List.map_flatMap, List.nodup_flatMap]
    refine ⟨fun i _ => (hlisted i).nodup, (List.nodup_finRange K).imp ?_⟩
    intro i j hne s hs hs'
    obtain ⟨⟨_, a⟩, ha, rfl⟩ := List.mem_map.1 hs
    obtain ⟨⟨_, b⟩, hb, heq⟩ := List.mem_map.1 hs'
    cases heq
    obtain ⟨c, hc⟩ := (hlisted i).within ha
    obtain ⟨d, hd⟩ := (hlisted j).within hb
    exact hne (hdisjoint hc hd)
  refine ⟨ofEntries (List.ofFn entries).flatten n, ?_, hgathered.ofEntries hnodup ?_⟩
  · rw [merge, htotal, ok_bind, Capacity.reserveTable, if_pos hlimit, ok_bind, hall, ok_bind]
    rfl
  · rintro s ⟨c, i, hc⟩
    exact ((hmaps i).within_of_mem hc).2.1

end Merge

end ColoredCtl.StateMap

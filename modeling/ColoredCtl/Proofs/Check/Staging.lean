import ColoredCtl.Proofs.Model.Explicit
import ColoredCtl.Proofs.Partition.Ownership

namespace ColoredCtl

open Color

variable {C : Type} {A : Algebra C}

namespace Context

/-- The worker is the one for the state. -/
def Owns (ctx : Context C) (s : Nat) : Prop :=
  s < ctx.stateCount ∧ ctx.partition.owner s = ctx.id

/-- The worker stands for a partition of the states of a model. -/
structure Ready (ctx : Context C) (R : Reading ctx.algebra) (S : Nat → Kripke) : Prop where
  serves : ctx.model.Serves R S
  stateCount_eq : ctx.stateCount = ctx.model.stateCount
  proper : ctx.partition.Proper
  localSet_count : ctx.localSet.stateCount = ctx.stateCount
  mem_localSet : ∀ s, ctx.localSet.contains s = true ↔ ctx.Owns s

/-- The map has the colors and states of a family of sets, at the states of the worker. -/
abbrev Shows (ctx : Context C) (R : Reading ctx.algebra) (P : Nat → Set Nat) (m : StateMap C) : Prop :=
  m.Shows R ctx.stateCount ctx.Owns fun s c => ctx.Owns s ∧ c ∈ R.palette ∧ s ∈ P c

namespace Ready

variable {ctx : Context C} {R : Reading ctx.algebra} {S : Nat → Kripke}

theorem stateCount_le (h : ctx.Ready R S) : ctx.stateCount ≤ Capacity.stateLimit :=
  h.stateCount_eq ▸ h.serves.stateCount_le

theorem owner_lt (h : ctx.Ready R S) {s : Nat} (hs : s < ctx.stateCount) :
    ctx.partition.owner s < ctx.partition.count :=
  h.proper.owner_lt hs

theorem newResult_spec (h : ctx.Ready R S) :
    ∃ acc, ctx.newResult = .ok acc ∧ acc.Fits R ctx.stateCount ∧
      (∀ s, ctx.Owns s → acc.range.contains s = true) ∧ ∀ s, acc.colorsAt R s = ∅ := by
  obtain ⟨acc, hacc, hfits, hrange, hempty⟩ :=
    h.proper.accumulator_spec (h.proper.hasRoom h.stateCount_le _) R
  exact ⟨acc, hacc, hfits, fun s hs => hrange s hs.1 hs.2, hempty⟩

/-- All colors at the states of the worker. -/
theorem localMap_shows (h : ctx.Ready R S) : ctx.Shows R (fun _ => Set.univ) ctx.localMap := by
  refine ⟨⟨h.localSet_count, R.inDomain_full⟩, fun hs => (h.mem_localSet _).1 hs, ?_⟩
  intro s c
  rw [Context.localMap, StateMap.colorsAt_constant, R.colors_full]
  by_cases hs : ctx.localSet.contains s = true
  · simp [hs, (h.mem_localSet s).1 hs]
  · have howns : ¬ctx.Owns s := fun howns => hs ((h.mem_localSet s).2 howns)
    simp [hs, howns]

end Ready

end Context

namespace Staging

/-- The colors staged for a worker at a state. -/
def colorsFor (R : Reading A) (staging : Staging C) (owner s : Nat) : Finset Nat :=
  match staging.maps[owner]? with
  | some (some acc) => acc.colorsAt R s
  | _ => ∅

/-- There is a map for each worker but one. -/
structure Fits (R : Reading A) (n count id : Nat) (staging : Staging C) : Prop where
  length_eq : staging.maps.length = count
  self : staging.maps[id]? = some none
  other : ∀ {j}, j < count → j ≠ id →
    ∃ acc, staging.maps[j]? = some (some acc) ∧ acc.Fits R n ∧ acc.range = ⟨0, n⟩

section

variable {R : Reading A} {n count id : Nat}

theorem colorsFor_eq {staging : Staging C} {j : Nat} {acc : Accumulator C}
    (h : staging.maps[j]? = some (some acc)) (s : Nat) :
    staging.colorsFor R j s = acc.colorsAt R s := by
  rw [colorsFor, h]

theorem colorsFor_eq_empty {staging : Staging C} {j : Nat}
    (h : ∀ acc, staging.maps[j]? ≠ some (some acc)) (s : Nat) : staging.colorsFor R j s = ∅ := by
  unfold colorsFor
  split
  · next acc hacc => exact absurd hacc (h acc)
  · rfl

theorem new_spec (ctx : Context C) {R : Reading ctx.algebra} {S : Nat → Kripke}
    (h : ctx.Ready R S) :
    (new ctx).Fits R ctx.stateCount ctx.partition.count ctx.id ∧
      ∀ j s, (new ctx).colorsFor R j s = ∅ := by
  have hmaps : ∀ j < ctx.partition.count, (new ctx).maps[j]? =
      some (if j = ctx.id then none else some (.newSparse ctx.stateCount)) := by
    intro j hj
    rw [new, List.getElem?_map, List.getElem?_range hj]
    rfl
  refine ⟨⟨by simp [new], ?_, ?_⟩, ?_⟩
  · rw [hmaps ctx.id h.proper.id_lt, if_pos rfl]
  · intro j hj hne
    exact ⟨_, by rw [hmaps j hj, if_neg hne], Accumulator.newSparse_fits, rfl⟩
  · intro j s
    by_cases hj : j < ctx.partition.count
    · by_cases hid : j = ctx.id
      · refine colorsFor_eq_empty (fun acc hacc => ?_) s
        rw [hmaps j hj, if_pos hid] at hacc
        cases hacc
      · rw [colorsFor_eq (by rw [hmaps j hj, if_neg hid]), Accumulator.colorsAt_newSparse]
    · refine colorsFor_eq_empty (fun acc hacc => ?_) s
      rw [List.getElem?_eq_none (by simpa [new] using hj)] at hacc
      cases hacc

/-- Staging a value adds its colors for the worker at the state. -/
theorem Fits.push_spec {staging : Staging C} (h : staging.Fits R n count id) {j s : Nat} {value : C}
    (hj : j < count) (hne : j ≠ id) (hs : s < n) (hvalue : R.InDomain value) :
    ∃ next, staging.push A j s value = .ok next ∧ next.Fits R n count id ∧
      ∀ k t, next.colorsFor R k t = if k = j ∧ t = s then staging.colorsFor R k t ∪ R.colors value
        else staging.colorsFor R k t := by
  obtain ⟨acc, hacc, hfits, hrange⟩ := h.other hj hne
  have hin : acc.range.contains s = true := by
    rw [hrange, Span.contains_iff]
    exact ⟨Nat.zero_le s, hs⟩
  obtain ⟨grew, grown, hadd, hgrown, hgrownRange, hcolors, _⟩ := hfits.add_spec hin hvalue
  have hmaps : ∀ k, (staging.maps.set j (some grown))[k]? =
      if j = k then some (some grown) else staging.maps[k]? := by
    intro k
    have hlt : j < staging.maps.length := h.length_eq ▸ hj
    by_cases hk : j = k
    · subst hk
      simp [hlt]
    · simp [hk]
  refine ⟨⟨staging.maps.set j (some grown)⟩, ?_, ⟨?_, ?_, ?_⟩, ?_⟩
  · rw [push, hacc]
    simp only [hadd, ok_bind]
    rfl
  · simpa using h.length_eq
  · rw [hmaps, if_neg hne, h.self]
  · intro k hk hkne
    rw [hmaps]
    by_cases hjk : j = k
    · exact ⟨grown, by rw [if_pos hjk], hgrown, hgrownRange.trans hrange⟩
    · rw [if_neg hjk]
      exact h.other hk hkne
  · intro k t
    by_cases hjk : j = k
    · subst hjk
      rw [colorsFor_eq ((hmaps j).trans (if_pos rfl)), hcolors, colorsFor_eq hacc]
      simp
    · rw [if_neg (fun hand => hjk hand.1.symm)]
      simp only [colorsFor, hmaps, if_neg hjk]

/-- A packet lists what is staged for the worker that it goes to. -/
theorem Fits.listed_of_outgoing {staging : Staging C} (h : staging.Fits R n count id) {j : Nat}
    {packet : Packet C} (hpacket : staging.outgoing[j]? = some (some packet)) :
    Listed R (fun s => s < n ∧ (staging.colorsFor R j s).Nonempty)
      (fun s c => c ∈ staging.colorsFor R j s) packet := by
  rw [outgoing, List.getElem?_map] at hpacket
  obtain ⟨slot, hslot, hsent⟩ := Option.map_eq_some_iff.1 hpacket
  cases slot with
  | none => cases hsent
  | some acc =>
    have hj : j < count := by
      rw [← h.length_eq]
      exact (List.getElem?_eq_some_iff.1 hslot).1
    have hne : j ≠ id := by
      rintro rfl
      rw [h.self] at hslot
      cases hslot
    obtain ⟨found, hfound, hfits, _⟩ := h.other hj hne
    rw [hslot] at hfound
    cases hfound
    dsimp only at hsent
    split at hsent
    · cases hsent
    · cases hsent
      simp only [colorsFor_eq hslot]
      refine ⟨⟨?_, ?_, ?_⟩, acc.inOrder_entries⟩
      · intro s a hmem
        have hget := Accumulator.mem_entries.1 hmem
        have hnonempty : (acc.colorsAt R s).Nonempty := by
          rw [Accumulator.colorsAt, hget]
          exact hfits.nonempty hget
        exact ⟨hfits.freeze_fits.lt_of_contains ((hfits.contains_freeze s).2 hnonempty), hnonempty⟩
      · intro s a hmem
        exact hfits.accepts s a (Accumulator.mem_entries.1 hmem)
      · intro s c
        simp only [Accumulator.mem_entries, Accumulator.colorsAt]
        cases acc.get? s <;> simp

/-- Packets are not empty. -/
theorem ne_nil_of_outgoing {staging : Staging C} {j : Nat} {packet : Packet C}
    (hpacket : staging.outgoing[j]? = some (some packet)) : packet ≠ [] := by
  rw [outgoing, List.getElem?_map] at hpacket
  obtain ⟨slot, _, hsent⟩ := Option.map_eq_some_iff.1 hpacket
  cases slot with
  | none => cases hsent
  | some acc =>
    dsimp only at hsent
    split at hsent
    · cases hsent
    · next hfull =>
      cases hsent
      rwa [Accumulator.isEmpty, List.isEmpty_iff] at hfull

/-- What is staged for a worker is sent to it. -/
theorem exists_packet {staging : Staging C} {j s c : Nat}
    (hc : c ∈ staging.colorsFor R j s) : ∃ packet, staging.outgoing[j]? = some (some packet) := by
  by_cases hacc : ∃ acc, staging.maps[j]? = some (some acc)
  · obtain ⟨acc, hacc⟩ := hacc
    rw [colorsFor_eq hacc, Accumulator.colorsAt] at hc
    have hfull : acc.isEmpty ≠ true := by
      rw [Ne, Accumulator.isEmpty_iff]
      intro hnone
      simp [hnone s] at hc
    exact ⟨acc.entries, by simp [outgoing, hacc, hfull]⟩
  · rw [colorsFor_eq_empty (not_exists.1 hacc)] at hc
    cases hc

/-- Maps without colors are empty, since no value in them is. -/
theorem Fits.isEmpty_of_colorsFor {staging : Staging C} (h : staging.Fits R n count id)
    (hempty : ∀ j s, staging.colorsFor R j s = ∅) {acc : Accumulator C} (hacc : some acc ∈ staging.maps) :
    acc.isEmpty = true := by
  obtain ⟨j, hslot⟩ := List.getElem?_of_mem hacc
  have hj : j < count := by
    rw [← h.length_eq]
    exact (List.getElem?_eq_some_iff.1 hslot).1
  have hne : j ≠ id := by
    rintro rfl
    rw [h.self] at hslot
    cases hslot
  obtain ⟨found, hfound, hfits, _⟩ := h.other hj hne
  obtain rfl : acc = found := by
    rw [hslot] at hfound
    cases hfound
    rfl
  rw [Accumulator.isEmpty_iff]
  intro s
  cases hget : acc.get? s with
  | none => rfl
  | some a =>
    have hcolors : R.colors a = ∅ := by
      rw [← hempty j s, colorsFor_eq hslot, Accumulator.colorsAt_of_get? hget]
    exact absurd (hfits.nonempty hget) (by simp [hcolors])

/-- Nothing is sent from empty maps. -/
theorem not_mem_outgoing {staging : Staging C}
    (h : ∀ acc, some acc ∈ staging.maps → acc.isEmpty = true) (packet : Packet C) :
    some packet ∉ staging.outgoing := by
  intro hpacket
  obtain ⟨slot, hslot, hsent⟩ := List.mem_map.1 hpacket
  cases slot with
  | none => cases hsent
  | some acc =>
    simp only [h acc hslot, if_true] at hsent
    cases hsent

theorem Fits.length_outgoing {staging : Staging C} (h : staging.Fits R n count id) :
    staging.outgoing.length = count := by
  rw [outgoing, List.length_map, h.length_eq]

theorem Fits.outgoing_self {staging : Staging C} (h : staging.Fits R n count id) :
    staging.outgoing[id]? = some none := by
  rw [outgoing, List.getElem?_map, h.self]
  rfl

theorem Fits.clear_spec {staging : Staging C} (h : staging.Fits R n count id) :
    staging.clear.Fits R n count id ∧ ∀ j s, staging.clear.colorsFor R j s = ∅ := by
  refine ⟨⟨?_, ?_, ?_⟩, ?_⟩
  · rw [clear, List.length_map, h.length_eq]
  · rw [clear, List.getElem?_map, h.self]
    rfl
  · intro j hj hne
    obtain ⟨acc, hacc, hfits, hrange⟩ := h.other hj hne
    exact ⟨acc.clear, by rw [clear, List.getElem?_map, hacc]; rfl, hfits.clear, by simp [hrange]⟩
  · intro j s
    simp only [colorsFor, clear, List.getElem?_map]
    cases staging.maps[j]? with
    | none => rfl
    | some slot =>
      cases slot with
      | none => rfl
      | some acc => simp [Accumulator.colorsAt]

end

end Staging

namespace Scatter

variable {ctx : Context C} {R : Reading ctx.algebra} {S : Nat → Kripke}

/-- Values on their way have been split by the owners of their states. -/
structure Splits (ctx : Context C) (R : Reading ctx.algebra) (packet : Packet C) (s : Scatter C) :
    Prop where
  own_fits : s.own.Fits R ctx.stateCount
  own_range : ∀ t, ctx.Owns t → s.own.range.contains t = true
  staging_fits : s.staging.Fits R ctx.stateCount ctx.partition.count ctx.id
  mem_own : ∀ {t c}, c ∈ s.own.colorsAt R t ↔
    ctx.partition.owner t = ctx.id ∧ ∃ a, (t, a) ∈ packet ∧ c ∈ R.colors a
  mem_staging : ∀ {j t c}, c ∈ s.staging.colorsFor R j t ↔
    j ≠ ctx.id ∧ ctx.partition.owner t = j ∧ ∃ a, (t, a) ∈ packet ∧ c ∈ R.colors a

theorem new_spec (h : ctx.Ready R S) : ∃ s, new ctx = .ok s ∧ Splits ctx R [] s := by
  obtain ⟨acc, hacc, hfits, hrange, hempty⟩ := h.newResult_spec
  obtain ⟨hstaging, hnone⟩ := Staging.new_spec ctx h
  refine ⟨⟨acc, .new ctx⟩, ?_, hfits, hrange, hstaging, by simp [hempty], by simp [hnone]⟩
  rw [new, hacc]
  rfl

theorem Splits.add_spec (h : ctx.Ready R S) {packet : Packet C} {s : Scatter C}
    (hs : Splits ctx R packet s) {t : Nat} {value : C} (ht : t < ctx.stateCount)
    (hvalue : R.InDomain value) :
    ∃ next, s.add ctx (t, value) = .ok next ∧ Splits ctx R (packet ++ [(t, value)]) next := by
  by_cases howner : ctx.partition.owner t = ctx.id
  · obtain ⟨grew, own, hadd, hfits, hrange, hcolors, _⟩ :=
      hs.own_fits.add_spec (hs.own_range t ⟨ht, howner⟩) hvalue
    refine ⟨⟨own, s.staging⟩, ?_, hfits, ?_, hs.staging_fits, ?_, ?_⟩
    · rw [add, if_pos howner]
      simp only [hadd, ok_bind]
      rfl
    · intro t' ht'
      rw [hrange]
      exact hs.own_range t' ht'
    · intro t' c
      rw [hcolors]
      by_cases heq : t' = t
      · subst heq
        simp [hs.mem_own, howner, or_and_right, exists_or]
      · simp [hs.mem_own, heq]
    · intro j t' c
      rw [hs.mem_staging]
      by_cases heq : t' = t
      · subst heq
        rw [howner]
        constructor
        · rintro ⟨hj, rfl, _⟩
          exact absurd rfl hj
        · rintro ⟨hj, rfl, _⟩
          exact absurd rfl hj
      · simp [heq]
  · obtain ⟨staging, hpush, hfits, hcolors⟩ :=
      hs.staging_fits.push_spec (h.owner_lt ht) howner ht hvalue
    refine ⟨⟨s.own, staging⟩, ?_, hs.own_fits, hs.own_range, hfits, ?_, ?_⟩
    · rw [add, if_neg howner]
      simp only [hpush, ok_bind]
      rfl
    · intro t' c
      rw [hs.mem_own]
      by_cases heq : t' = t
      · subst heq
        simp [howner]
      · simp [heq]
    · intro j t' c
      rw [hcolors]
      by_cases heq : j = ctx.partition.owner t ∧ t' = t
      · obtain ⟨rfl, rfl⟩ := heq
        simp [hs.mem_staging, howner, or_and_right, exists_or]
      · rw [if_neg heq, hs.mem_staging]
        by_cases htt : t' = t
        · subst htt
          have hj : ctx.partition.owner t' ≠ j := fun hj => heq ⟨hj.symm, rfl⟩
          simp [hj]
        · simp [htt]

/-- Values are split one after the other. -/
theorem addAll_spec (h : ctx.Ready R S) {packet : Packet C}
    (hpacket : ∀ t a, (t, a) ∈ packet → t < ctx.stateCount ∧ R.InDomain a) {start : Scatter C}
    (hstart : Splits ctx R [] start) :
    ∃ s, packet.foldlM (add ctx) start = .ok s ∧ Splits ctx R packet s := by
  apply foldlM_run (Splits ctx R) hstart
  rintro done ⟨t, a⟩ rest s hsplit hs
  obtain ⟨ht, ha⟩ := hpacket t a (by simp [hsplit])
  exact hs.add_spec h ht ha

end Scatter

end ColoredCtl

import ColoredCtl.Proofs.Outcome
import ColoredCtl.State.StateMap

namespace ColoredCtl

/-- Lists in increasing order with the same members are equal. -/
theorem eq_of_pairwise_lt {xs ys : List Nat} (hxs : xs.Pairwise (· < ·)) (hys : ys.Pairwise (· < ·))
    (h : ∀ x, x ∈ xs ↔ x ∈ ys) : xs = ys := by
  have hperm : xs.Perm ys := by
    refine (List.perm_ext_iff_of_nodup ?_ ?_).2 h
    · exact hxs.imp fun hlt => Nat.ne_of_lt hlt
    · exact hys.imp fun hlt => Nat.ne_of_lt hlt
  exact hperm.eq_of_pairwise (fun a b _ _ hab hba => absurd hab (Nat.lt_asymm hba)) hxs hys

theorem pairwise_lt_range_filter (p : Nat → Bool) (n : Nat) :
    ((List.range n).filter p).Pairwise (· < ·) :=
  List.Pairwise.filter p List.pairwise_lt_range

/-- A list in increasing order lists the numbers below a bound that are its members. -/
theorem eq_range_filter {xs : List Nat} {p : Nat → Bool} {n : Nat} (hxs : xs.Pairwise (· < ·))
    (h : ∀ x, x ∈ xs ↔ x < n ∧ p x = true) : xs = (List.range n).filter p := by
  apply eq_of_pairwise_lt hxs (pairwise_lt_range_filter p n)
  intro x
  rw [h, List.mem_filter, List.mem_range]

/-- The states of a list of states with values stand in increasing order. -/
def InOrder {V : Type} (entries : List (Nat × V)) : Prop := (entries.map (·.1)).Pairwise (· < ·)

theorem InOrder.eq_of_perm {V : Type} {l l' : List (Nat × V)} (hl : InOrder l) (hl' : InOrder l')
    (h : l.Perm l') : l = l' := by
  refine h.eq_of_pairwise ?_ (List.pairwise_map.1 hl) (List.pairwise_map.1 hl')
  intro a b _ _ hab hba
  exact absurd hab (Nat.lt_asymm hba)

/-- A list in order is determined by its entries. -/
theorem InOrder.ext {V : Type} {l l' : List (Nat × V)} (hl : InOrder l) (hl' : InOrder l')
    (h : ∀ x, x ∈ l ↔ x ∈ l') : l = l' := by
  have hnodup {k : List (Nat × V)} (hk : InOrder k) : k.Nodup :=
    (List.pairwise_map.1 hk).imp fun hlt heq => Nat.ne_of_lt hlt (congrArg Prod.fst heq)
  exact hl.eq_of_perm hl' ((List.perm_ext_iff_of_nodup (hnodup hl) (hnodup hl')).2 h)

/-- A selection that keeps the states keeps their order. -/
theorem InOrder.filterMap {α V : Type} {items : List α} {key : α → Nat}
    (hitems : items.Pairwise fun x y => key x < key y) {f : α → Option (Nat × V)}
    (hf : ∀ x ∈ items, ∀ entry, f x = some entry → entry.1 = key x) : InOrder (items.filterMap f) := by
  rw [InOrder, List.pairwise_map, List.pairwise_filterMap]
  apply hitems.imp_of_mem
  intro x y hx hy hlt a ha b hb
  rw [hf x hx a ha, hf y hy b hb]
  exact hlt

namespace StateSet

theorem insert_eq (s : StateSet) {state : Nat} (h : state < s.stateCount) :
    s.insert state = .ok (!s.contains state, s.add state h) := by
  rw [insert, dif_pos h]

/-- Inserting states of the space one after the other adds them and no others. -/
theorem foldlM_insert_spec {α : Type} {n : Nat} {l : List α} {f : α → Except Misuse Nat}
    {g : α → Nat} (hf : ∀ x ∈ l, f x = .ok (g x)) (hlt : ∀ x ∈ l, g x < n) :
    ∃ s, l.foldlM (fun s x => do return (← StateSet.insert s (← f x)).2) (empty n) =
        (.ok s : Except Misuse StateSet) ∧ s.stateCount = n ∧
      ∀ state, s.contains state = true ↔ ∃ x ∈ l, g x = state := by
  refine foldlM_run (fun done (s : StateSet) => s.stateCount = n ∧
    ∀ state, s.contains state = true ↔ ∃ x ∈ done, g x = state) ⟨rfl, by simp⟩ ?_
  intro done x rest s hitems ⟨hcount, hcontains⟩
  have hmem : x ∈ l := by simp [hitems]
  have hx : g x < s.stateCount := hcount ▸ hlt x hmem
  refine ⟨s.add (g x) hx, by simp [hf x hmem, insert_eq s hx, pure, Except.pure], hcount, ?_⟩
  intro state
  rw [contains_add, Bool.or_eq_true, hcontains, decide_eq_true_iff]
  simp only [List.mem_append, List.mem_singleton, or_and_right, exists_or, exists_eq_left]

/-- Inserting states one after the other, where it succeeds, adds them and no others. -/
theorem of_foldlM_insert {α : Type} {l : List α} {f : α → Except Misuse Nat} {s t : StateSet}
    (h : l.foldlM (fun s x => do return (← StateSet.insert s (← f x)).2) s =
      (.ok t : Except Misuse StateSet)) :
    (∀ x ∈ l, ∃ state, f x = .ok state) ∧
      ∀ state, t.contains state = true ↔ s.contains state = true ∨ ∃ x ∈ l, f x = .ok state := by
  induction l generalizing s with
  | nil =>
    cases h
    simp
  | cons x l ih =>
    rw [List.foldlM_cons] at h
    obtain ⟨next, hnext, hrest⟩ := bind_eq_ok_iff.1 h
    obtain ⟨first, hfirst, hnext⟩ := bind_eq_ok_iff.1 hnext
    by_cases hlt : first < s.stateCount
    · rw [insert_eq s hlt] at hnext
      cases hnext
      obtain ⟨hstates, hcontains⟩ := ih hrest
      refine ⟨List.forall_mem_cons.2 ⟨⟨first, hfirst⟩, hstates⟩, fun state => ?_⟩
      rw [hcontains, contains_add, Bool.or_eq_true, decide_eq_true_iff]
      simp only [List.mem_cons, or_and_right, exists_or, exists_eq_left, hfirst, Except.ok.injEq, or_assoc]
    · rw [insert, dif_neg hlt] at hnext
      cases hnext

theorem ofList_spec {n : Nat} {l : List Nat} (h : ∀ state ∈ l, state < n) :
    ∃ s, ofList n l = .ok s ∧ s.stateCount = n ∧
      ∀ state, s.contains state = true ↔ state ∈ l := by
  obtain ⟨s, hs, hcount, hcontains⟩ := foldlM_insert_spec (l := l) (f := .ok) (g := fun x => x)
    (fun _ _ => rfl) h
  exact ⟨s, hs, hcount, by simpa using hcontains⟩

theorem ofSpan_spec {n : Nat} {range : Span} (h : range.start < range.stop → range.stop ≤ n) :
    ∃ s, ofSpan n range = .ok s ∧ s.stateCount = n ∧
      ∀ state, s.contains state = range.contains state := by
  have hinside : (!range.isEmpty && decide ((empty n).stateCount < range.stop)) = false := by
    by_cases hlt : range.start < range.stop
    · have hstop : ¬n < range.stop := Nat.not_lt.2 (h hlt)
      simp [empty, hstop]
    · simp [Span.isEmpty, Nat.not_lt.1 hlt]
  refine ⟨(empty n).addSpan range, by simp only [ofSpan, insertSpan, hinside]; rfl, rfl, ?_⟩
  intro state
  rw [contains_addSpan, contains_empty, Bool.false_or]
  cases hcontains : range.contains state with
  | false => rfl
  | true =>
    have hrange := (Span.contains_iff range state).1 hcontains
    have hstop := h (by omega)
    have hlt : state < (empty n).stateCount := show state < n by omega
    simp [hlt]

theorem union_spec {s t : StateSet} (h : s.stateCount = t.stateCount) :
    ∃ u, s.union t = .ok u ∧ u.stateCount = s.stateCount ∧
      ∀ state, u.contains state = (s.contains state || t.contains state) := by
  have hsize : s.bits.words.size = t.bits.words.size := by rw [s.room, t.room, h]
  rw [union, dif_pos h]
  exact ⟨_, rfl, rfl, fun state => Bitmap.get_union hsize state⟩

theorem contains_of_union {s t u : StateSet} (h : s.union t = .ok u) (state : Nat) :
    u.contains state = (s.contains state || t.contains state) := by
  by_cases hcount : s.stateCount = t.stateCount
  · obtain ⟨v, hv, _, hcontains⟩ := union_spec hcount
    cases h.symm.trans hv
    exact hcontains state
  · rw [union, dif_neg hcount] at h
    cases h

theorem inter_spec {s t : StateSet} (h : s.stateCount = t.stateCount) :
    ∃ u, s.inter t = .ok u ∧ u.stateCount = s.stateCount ∧
      ∀ state, u.contains state = (s.contains state && t.contains state) := by
  have hsize : s.bits.words.size = t.bits.words.size := by rw [s.room, t.room, h]
  rw [inter, dif_pos h]
  exact ⟨_, rfl, rfl, fun state => Bitmap.get_inter hsize state⟩

theorem contains_of_inter {s t u : StateSet} (h : s.inter t = .ok u) (state : Nat) :
    u.contains state = (s.contains state && t.contains state) := by
  by_cases hcount : s.stateCount = t.stateCount
  · obtain ⟨v, hv, _, hcontains⟩ := inter_spec hcount
    cases h.symm.trans hv
    exact hcontains state
  · rw [inter, dif_neg hcount] at h
    cases h

theorem contains_of_ofSpan {n : Nat} {range : Span} {s : StateSet} (h : ofSpan n range = .ok s)
    (state : Nat) : s.contains state = range.contains state := by
  by_cases hstop : range.start < range.stop → range.stop ≤ n
  · obtain ⟨t, ht, _, hcontains⟩ := ofSpan_spec hstop
    cases h.symm.trans ht
    exact hcontains state
  · obtain ⟨hlt, hout⟩ := Classical.not_imp.1 hstop
    have houtside : (!range.isEmpty && decide ((empty n).stateCount < range.stop)) = true := by
      simp [Span.isEmpty, hlt, empty, Nat.not_le.1 hout]
    simp only [ofSpan, insertSpan, houtside] at h
    cases h

end StateSet

end ColoredCtl

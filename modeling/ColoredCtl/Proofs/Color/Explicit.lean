import ColoredCtl.Color.ColorSet
import ColoredCtl.Proofs.Color.Reading

namespace ColoredCtl.Color

namespace ColorSet

/-- The sets of a domain: as many words as it needs, and no member that is not a valuation. -/
structure InDomain (n : Nat) (a : ColorSet) : Prop where
  size_eq : a.words.size = wordCount n
  lt_of_contains : ∀ c, a.contains c = true → c < n

section

variable {n : Nat} {a b : ColorSet}

theorem InDomain.accept_eq (h : a.InDomain n) : a.accept n = .ok () := by
  rw [accept, if_pos h.size_eq]

theorem inDomain_empty (n : Nat) : (empty n).InDomain n := ⟨Array.size_replicate, by simp⟩

theorem size_words_full (n : Nat) : (full n).words.size = wordCount n := by
  rw [full, size_maskTail, Array.size_replicate]

theorem inDomain_full (n : Nat) : (full n).InDomain n := ⟨size_words_full n, by simp⟩

/-- The first colors of a domain are a set of the domain, if they take as many words. -/
theorem inDomain_full_of_le {m : Nat} (hwords : wordCount m = wordCount n) (hle : m ≤ n) :
    (full m).InDomain n := by
  refine ⟨(size_words_full m).trans hwords, fun c hc => ?_⟩
  rw [contains_full, decide_eq_true_iff] at hc
  omega

theorem size_words_zip {op : BitVec 64 → BitVec 64 → BitVec 64} (h : a.words.size = b.words.size) :
    (zip op a b).words.size = b.words.size := by
  rw [zip, Array.size_zipWith, h, Nat.min_self]

theorem InDomain.same_size (ha : a.InDomain n) (hb : b.InDomain n) : a.words.size = b.words.size :=
  ha.size_eq.trans hb.size_eq.symm

theorem InDomain.inter (ha : a.InDomain n) (hb : b.InDomain n) : (a.inter b).InDomain n := by
  refine ⟨(size_words_zip (ha.same_size hb)).trans hb.size_eq, fun c hc => ?_⟩
  rw [contains_inter (ha.same_size hb), Bool.and_eq_true] at hc
  exact ha.lt_of_contains c hc.1

theorem InDomain.union (ha : a.InDomain n) (hb : b.InDomain n) : (a.union b).InDomain n := by
  refine ⟨(size_words_zip (ha.same_size hb)).trans hb.size_eq, fun c hc => ?_⟩
  rw [contains_union (ha.same_size hb), Bool.or_eq_true] at hc
  exact hc.elim (ha.lt_of_contains c) (hb.lt_of_contains c)

theorem InDomain.diff (ha : a.InDomain n) (hb : b.InDomain n) : (a.diff b).InDomain n := by
  refine ⟨(size_words_zip (hb.same_size ha)).trans ha.size_eq, fun c hc => ?_⟩
  rw [contains_diff (ha.same_size hb), Bool.and_eq_true] at hc
  exact ha.lt_of_contains c hc.1

theorem InDomain.compl (ha : a.InDomain n) : (a.compl n).InDomain n := by
  refine ⟨?_, fun c hc => ?_⟩
  · rw [ColorSet.compl, size_maskTail, Array.size_map, ha.size_eq]
  · rw [contains_compl ha.size_eq, Bool.and_eq_true, decide_eq_true_iff] at hc
    exact hc.1

/-- Sets of one domain with the same members are equal. -/
theorem InDomain.ext (ha : a.InDomain n) (hb : b.InDomain n) (h : ∀ c, a.contains c = b.contains c) :
    a = b :=
  ColorSet.ext (ha.same_size hb) h

end

/-- The members as a finite set. -/
def members (a : ColorSet) : Finset Nat := a.toList.toFinset

@[simp] theorem mem_members (a : ColorSet) (c : Nat) : c ∈ a.members ↔ a.contains c = true := by
  simp [members]

theorem isEmpty_eq_false_iff (a : ColorSet) : a.isEmpty = false ↔ a.members.Nonempty := by
  rw [← Bool.not_eq_true, isEmpty_iff, Finset.Nonempty]
  simp

end ColorSet

open ColorSet in
/-- The reading of explicit color sets: the members of a set. -/
def Reading.explicit (n : Nat) : Reading (Algebra.explicit n) where
  palette := Finset.range n
  InDomain a := a.InDomain n
  colors := members
  colors_subset ha c hc := Finset.mem_range.2 (ha.lt_of_contains c ((mem_members _ c).1 hc))
  inDomain_full := ColorSet.inDomain_full n
  colors_full := by
    ext c
    rw [mem_members, Finset.mem_range]
    exact (contains_full n c).symm ▸ decide_eq_true_iff
  inDomain_empty := ColorSet.inDomain_empty n
  colors_empty := by
    ext c
    rw [mem_members]
    exact (contains_empty n c).symm ▸ by simp
  inter_spec {a b} ha hb := by
    refine ⟨a.inter b, ?_, ha.inter hb, ?_⟩
    · simp [Algebra.explicit, ha.accept_eq, hb.accept_eq, pure, Except.pure]
    · ext c
      simp [contains_inter (ha.same_size hb)]
  union_spec {a b} ha hb := by
    refine ⟨a.union b, ?_, ha.union hb, ?_⟩
    · simp [Algebra.explicit, ha.accept_eq, hb.accept_eq, pure, Except.pure]
    · ext c
      simp [contains_union (ha.same_size hb)]
  diff_spec {a b} ha hb := by
    refine ⟨a.diff b, ?_, ha.diff hb, ?_⟩
    · simp [Algebra.explicit, ha.accept_eq, hb.accept_eq, pure, Except.pure]
    · ext c
      simp [contains_diff (ha.same_size hb)]
  nonempty_spec {a} ha := by
    refine ⟨!a.isEmpty, ?_, ?_⟩
    · simp [Algebra.explicit, ha.accept_eq, pure, Except.pure]
    · rw [Bool.not_eq_true', isEmpty_eq_false_iff]
  card_palette_le := by
    rw [Finset.card_range]
    exact valuations_le n

theorem Reading.faithful_explicit (n : Nat) : (Reading.explicit n).Faithful := by
  intro a b ha hb h
  refine ColorSet.InDomain.ext ha hb fun c => ?_
  rw [Bool.eq_iff_iff, ← ColorSet.mem_members, ← ColorSet.mem_members]
  exact Finset.ext_iff.1 h c

theorem Reading.equates_explicit (n : Nat) : (Reading.explicit n).Equates := by
  intro a b ha hb
  refine ⟨a.words == b.words, ?_, ?_⟩
  · simp [Algebra.explicit, ha.accept_eq, hb.accept_eq, pure, Except.pure]
  · rw [beq_iff_eq]
    constructor
    · intro hwords
      ext c
      change c ∈ a.members ↔ c ∈ b.members
      rw [ColorSet.mem_members, ColorSet.mem_members, ColorSet.contains, ColorSet.contains, hwords]
    · intro hcolors
      rw [Reading.faithful_explicit n ha hb hcolors]

end ColoredCtl.Color

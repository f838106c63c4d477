import ColoredCtl.Proofs.Channel.Canonical
import Mathlib.Data.Set.Card
import Mathlib.Order.Interval.Set.Basic

namespace ColoredCtl.Color

namespace ColorSet

variable {n : Nat} {a b : ColorSet}

/-- The members of a value. -/
def toSet (a : ColorSet) : Set Nat := {c | a.contains c = true}

@[simp] theorem mem_toSet {c : Nat} : c ∈ a.toSet ↔ a.contains c = true := Iff.rfl

theorem toSet_full (n : Nat) : (full n).toSet = Set.Iio n := by
  ext c
  simp

theorem toSet_empty (n : Nat) : (empty n).toSet = ∅ := by
  ext c
  simp

theorem coe_members (a : ColorSet) : (a.members : Set Nat) = a.toSet := by
  ext c
  simp

/-- A computation succeeds with a value of the domain that has the given members. -/
def Denotes (n : Nat) (x : Except Misuse ColorSet) (X : Set Nat) : Prop :=
  ∃ a, x = .ok a ∧ a.InDomain n ∧ a.toSet = X

/-- A test succeeds and tells whether something is so. -/
def Tests (x : Except Misuse Bool) (P : Prop) : Prop := ∃ found, x = .ok found ∧ (found = true ↔ P)

section Lists

theorem insert_spec (ha : a.InDomain n) {c : Nat} (hc : c < n) :
    ∃ r, insert n a c = .ok r ∧ r.InDomain n ∧ ∀ d, r.contains d = true ↔ a.contains d = true ∨ d = c := by
  have hwords : c < 64 * a.words.size := by
    have := valuations_le n
    rw [ha.size_eq]
    omega
  have hiff (d : Nat) : contains ⟨a.words.modify (c / 64) (· ||| 1#64 <<< (c % 64))⟩ d = true ↔
      a.contains d = true ∨ d = c := by
    rw [contains_insertBit hwords, Bool.or_eq_true, decide_eq_true_iff, @eq_comm _ c d]
  refine ⟨_, if_pos hc, ⟨Array.size_modify.trans ha.size_eq, fun d hd => ?_⟩, hiff⟩
  obtain hd | rfl := (hiff d).1 hd
  · exact ha.lt_of_contains d hd
  · exact hc

/-- The set of listed colors, if all of them are in the domain. -/
theorem ofList_denotes {colors : List Nat} (h : ∀ c ∈ colors, c < n) :
    Denotes n (ofList n colors) {c | c ∈ colors} := by
  refine foldlM_run (f := insert n) (l := colors) (s := empty n)
    (fun done a => a.InDomain n ∧ a.toSet = {c | c ∈ done}) ?_ ?_
  · exact ⟨inDomain_empty n, by ext c; simp⟩
  · rintro done c rest a hsplit ⟨ha, hmembers⟩
    obtain ⟨r, hr, hdomain, hcontains⟩ := insert_spec ha (h c (by simp [hsplit]))
    refine ⟨r, hr, hdomain, ?_⟩
    ext d
    have hd : a.contains d = true ↔ d ∈ done := Set.ext_iff.1 hmembers d
    simp [hcontains, hd]

/-- The first color that is not in the domain is refused. -/
theorem ofList_of_outside {before after : List Nat} {c : Nat} (hbefore : ∀ d ∈ before, d < n) (hc : n ≤ c) :
    ofList n (before ++ c :: after) = .error (.colorOutside c n) := by
  obtain ⟨a, ha, _⟩ := ofList_denotes hbefore
  rw [ofList] at ha
  rw [ofList, List.foldlM_append, ha, ok_bind, List.foldlM_cons, insert, if_neg (Nat.not_lt.2 hc)]
  rfl

theorem exists_ofList_error_iff {colors : List Nat} :
    (∃ cause, ofList n colors = .error cause) ↔ ∃ c ∈ colors, n ≤ c := by
  constructor
  · rintro ⟨cause, hcause⟩
    by_contra hnone
    push Not at hnone
    obtain ⟨a, ha, _⟩ := ofList_denotes hnone
    cases ha.symm.trans hcause
  · rintro ⟨c, hmem, hc⟩
    have hfound : (colors.find? fun c => decide (n ≤ c)).isSome = true :=
      List.find?_isSome.2 ⟨c, hmem, decide_eq_true hc⟩
    obtain ⟨first, hfirst⟩ := Option.isSome_iff_exists.1 hfound
    obtain ⟨hout, before, after, rfl, hbefore⟩ := List.find?_eq_some_iff_append.1 hfirst
    refine ⟨_, ofList_of_outside (fun d hd => ?_) (of_decide_eq_true hout)⟩
    simpa using hbefore d hd

theorem insertFrom_eq_foldlM (n count color : Nat) (a : ColorSet) :
    insertFrom n count color a = (List.range' color count).foldlM (insert n) a := by
  induction count generalizing color a with
  | zero => rfl
  | succ count ih =>
    rw [insertFrom, List.range'_succ, List.foldlM_cons]
    exact bind_congr fun b => ih (color + 1) b

/-- A range is the list of its colors, for which there must be room. -/
theorem ofRange_eq_ofList (n start stop : Nat) :
    ofRange n start stop = (do
      Capacity.reserve Capacity.wordBytes (stop - start)
      ofList n (List.range' start (stop - start))) := by
  rw [ofRange]
  exact bind_congr fun _ => insertFrom_eq_foldlM n (stop - start) start (empty n)

/-- A range that can be made has the colors from its start up to its stop. -/
theorem ofRange_spec {start stop : Nat} (h : ofRange n start stop = .ok a) :
    a.InDomain n ∧ a.toSet = Set.Ico start stop := by
  rw [ofRange_eq_ofList] at h
  obtain ⟨_, _, h⟩ := bind_eq_ok_iff.1 h
  have hall : ∀ c ∈ List.range' start (stop - start), c < n := by
    by_contra hnot
    push Not at hnot
    obtain ⟨cause, hcause⟩ := exists_ofList_error_iff.2 hnot
    cases h.symm.trans hcause
  obtain ⟨r, hr, hdomain, hmembers⟩ := ofList_denotes hall
  cases h.symm.trans hr
  refine ⟨hdomain, ?_⟩
  ext c
  rw [hmembers, Set.mem_ofPred_eq, List.mem_range'_1, Set.mem_Ico]
  omega

end Lists

section Operations

theorem inter_denotes (ha : a.InDomain n) (hb : b.InDomain n) :
    Denotes n ((Algebra.explicit n).inter a b) (a.toSet ∩ b.toSet) := by
  obtain ⟨r, hr, hdomain, hcolors⟩ := (Reading.explicit n).inter_spec ha hb
  have hmembers : r.members = a.members ∩ b.members := hcolors
  refine ⟨r, hr, hdomain, ?_⟩
  rw [← coe_members, hmembers, Finset.coe_inter, coe_members, coe_members]

theorem union_denotes (ha : a.InDomain n) (hb : b.InDomain n) :
    Denotes n ((Algebra.explicit n).union a b) (a.toSet ∪ b.toSet) := by
  obtain ⟨r, hr, hdomain, hcolors⟩ := (Reading.explicit n).union_spec ha hb
  have hmembers : r.members = a.members ∪ b.members := hcolors
  refine ⟨r, hr, hdomain, ?_⟩
  rw [← coe_members, hmembers, Finset.coe_union, coe_members, coe_members]

theorem diff_denotes (ha : a.InDomain n) (hb : b.InDomain n) :
    Denotes n ((Algebra.explicit n).diff a b) (a.toSet \ b.toSet) := by
  obtain ⟨r, hr, hdomain, hcolors⟩ := (Reading.explicit n).diff_spec ha hb
  have hmembers : r.members = a.members \ b.members := hcolors
  refine ⟨r, hr, hdomain, ?_⟩
  rw [← coe_members, hmembers, Finset.coe_sdiff, coe_members, coe_members]

theorem compl_denotes (ha : a.InDomain n) : Denotes n ((Algebra.explicit n).compl a) (Set.Iio n \ a.toSet) := by
  refine ⟨a.compl n, ?_, ha.compl, ?_⟩
  · simp [Algebra.explicit, ha.accept_eq, pure, Except.pure]
  · ext c
    simp [contains_compl ha.size_eq]

/-- To take a set away is to intersect with its complement. -/
theorem diff_eq_inter_compl (ha : a.InDomain n) (hb : b.InDomain n) :
    (Algebra.explicit n).diff a b = (do (Algebra.explicit n).inter a (← (Algebra.explicit n).compl b)) := by
  have hcompl : (b.compl n).InDomain n := hb.compl
  have hsame : a.diff b = a.inter (b.compl n) := by
    refine (ha.diff hb).ext (ha.inter hcompl) fun c => ?_
    rw [contains_diff (ha.same_size hb), contains_inter (ha.same_size hcompl), contains_compl hb.size_eq]
    by_cases hc : a.contains c = true
    · simp [hc, ha.lt_of_contains c hc]
    · simp [hc]
  simp [Algebra.explicit, ha.accept_eq, hb.accept_eq, hcompl.accept_eq, hsame, pure, Except.pure]

theorem nonempty_tests (ha : a.InDomain n) : Tests ((Algebra.explicit n).nonempty a) a.toSet.Nonempty := by
  obtain ⟨found, hfound, hiff⟩ := (Reading.explicit n).nonempty_spec ha
  refine ⟨found, hfound, hiff.trans ?_⟩
  rw [← coe_members, Finset.coe_nonempty]
  rfl

theorem isEmpty_tests (ha : a.InDomain n) : Tests ((Algebra.explicit n).isEmpty a) (a.toSet = ∅) := by
  obtain ⟨found, hfound, hiff⟩ := nonempty_tests ha
  refine ⟨!found, by rw [Operations.isEmpty, hfound]; rfl, ?_⟩
  rw [← Set.not_nonempty_iff_eq_empty, ← hiff, Bool.not_eq_true', Bool.not_eq_true]

theorem equal_tests (ha : a.InDomain n) (hb : b.InDomain n) :
    Tests ((Algebra.explicit n).equal a b) (a.toSet = b.toSet) := by
  refine ⟨a.words == b.words, by simp [Algebra.explicit, ha.accept_eq, hb.accept_eq, pure, Except.pure], ?_⟩
  rw [beq_iff_eq]
  constructor
  · intro h
    ext c
    simp [contains, h]
  · intro h
    have hsame : a = b := ha.ext hb fun c => Bool.eq_iff_iff.2 (Set.ext_iff.1 h c)
    rw [hsame]

theorem pairwise_toList (a : ColorSet) : a.toList.Pairwise (· < ·) := by
  rw [toList_eq]
  exact List.Pairwise.filter _ List.pairwise_lt_range

theorem size_eq_ncard (a : ColorSet) : a.size = a.toSet.ncard := by
  have hnodup : a.toList.Nodup := a.pairwise_toList.imp Nat.ne_of_lt
  rw [size_eq, ← coe_members, Set.ncard_coe_finset, members, List.toFinset_card_of_nodup hnodup]

/-- A value grows by another one exactly if that has a new member. -/
theorem grow?_some_spec (ha : a.InDomain n) (hb : b.InDomain n) :
    (b.toSet ⊆ a.toSet ∧ (Algebra.explicit n).grow? (some a) b = .ok none) ∨
      (¬b.toSet ⊆ a.toSet ∧ ∃ r, (Algebra.explicit n).grow? (some a) b = .ok (some r) ∧ r.InDomain n ∧
        r.toSet = a.toSet ∪ b.toSet) := by
  have hsub : b.members ⊆ a.members ↔ b.toSet ⊆ a.toSet := by
    rw [← coe_members, ← coe_members, Finset.coe_subset]
  obtain ⟨hnone, h⟩ | ⟨r, hr, hdomain, hcolors, h⟩ :=
    (Reading.explicit n).grow?_spec ((Reading.explicit n).accepts_some ha) hb
  · exact .inl ⟨hsub.1 h, hnone⟩
  · refine .inr ⟨fun hnot => h (hsub.2 hnot), r, hr, hdomain, ?_⟩
    have hmembers : r.members = a.members ∪ b.members := hcolors
    rw [← coe_members, hmembers, Finset.coe_union, coe_members, coe_members]

theorem grow?_none_spec (hb : b.InDomain n) :
    (b.toSet = ∅ ∧ (Algebra.explicit n).grow? none b = .ok none) ∨
      (b.toSet.Nonempty ∧ (Algebra.explicit n).grow? none b = .ok (some b)) := by
  obtain ⟨found, hfound, hiff⟩ := nonempty_tests hb
  have hgrow : (Algebra.explicit n).grow? none b = .ok (if found then some b else none) := by
    rw [Operations.grow?, hfound]
    cases found <;> rfl
  cases found with
  | false => exact .inl ⟨Set.not_nonempty_iff_eq_empty.1 fun h => Bool.false_ne_true (hiff.2 h), hgrow⟩
  | true => exact .inr ⟨hiff.1 rfl, hgrow⟩

end Operations

end ColorSet

open ColorSet in
/-- The operations of the explicit algebra on values of the domain are those on the sets of their members. -/
structure Algebra.RefinesSets (n : Nat) : Prop where
  /-- A value of the domain has one word for 64 colors, the bits of its words are its members, and its last
  word has no bit beyond the domain. -/
  words : ∀ {a : ColorSet}, a.InDomain n → a.words.size = (n + 63) / 64 ∧
    (∀ c, a.contains c = (a.words[c / 64]?.getD 0#64).getLsbD (c % 64)) ∧
    a.words.toList.getLast?.any (fun w => w &&& ~~~Bits.tailMask n != 0#64) = false
  full : Denotes n (.ok (Algebra.explicit n).full.get) (Set.Iio n)
  empty : Denotes n (.ok (Algebra.explicit n).empty.get) ∅
  ofList : ∀ {colors}, (∀ c ∈ colors, c < n) → Denotes n (ColorSet.ofList n colors) {c | c ∈ colors}
  ofList_error : ∀ {colors}, (∃ cause, ColorSet.ofList n colors = .error cause) ↔ ∃ c ∈ colors, n ≤ c
  ofRange : ∀ {start stop a}, ColorSet.ofRange n start stop = .ok a →
    a.InDomain n ∧ a.toSet = Set.Ico start stop
  ofRange_eq : ∀ start stop, ColorSet.ofRange n start stop = do
    Capacity.reserve Capacity.wordBytes (stop - start)
    ColorSet.ofList n (List.range' start (stop - start))
  inter : ∀ {a b : ColorSet}, a.InDomain n → b.InDomain n →
    Denotes n ((Algebra.explicit n).inter a b) (a.toSet ∩ b.toSet)
  union : ∀ {a b : ColorSet}, a.InDomain n → b.InDomain n →
    Denotes n ((Algebra.explicit n).union a b) (a.toSet ∪ b.toSet)
  compl : ∀ {a : ColorSet}, a.InDomain n → Denotes n ((Algebra.explicit n).compl a) (Set.Iio n \ a.toSet)
  diff : ∀ {a b : ColorSet}, a.InDomain n → b.InDomain n →
    Denotes n ((Algebra.explicit n).diff a b) (a.toSet \ b.toSet)
  diff_eq : ∀ {a b : ColorSet}, a.InDomain n → b.InDomain n → (Algebra.explicit n).diff a b = do
    (Algebra.explicit n).inter a (← (Algebra.explicit n).compl b)
  minimize : ∀ a, (Algebra.explicit n).minimize a = a
  transfer : ∀ {a : ColorSet}, a.InDomain n → (Algebra.explicit n).transfer (Algebra.explicit n) a = .ok a
  get : ∀ {bytes a rest}, (Algebra.explicit n).get bytes = .ok (a, rest) → a.InDomain n
  nonempty : ∀ {a : ColorSet}, a.InDomain n → Tests ((Algebra.explicit n).nonempty a) a.toSet.Nonempty
  isEmpty : ∀ {a : ColorSet}, a.InDomain n → Tests ((Algebra.explicit n).isEmpty a) (a.toSet = ∅)
  maybeNonempty : ∀ {a : ColorSet}, a.InDomain n → Tests ((Algebra.explicit n).maybeNonempty a) a.toSet.Nonempty
  maybeEmpty : ∀ {a : ColorSet}, a.InDomain n → Tests ((Algebra.explicit n).maybeEmpty a) (a.toSet = ∅)
  equal : ∀ {a b : ColorSet}, a.InDomain n → b.InDomain n →
    Tests ((Algebra.explicit n).equal a b) (a.toSet = b.toSet)
  size : ∀ {a : ColorSet}, a.InDomain n → a.size = a.toSet.ncard
  toList : ∀ {a : ColorSet}, a.InDomain n → a.toList.Pairwise (· < ·) ∧ ∀ c, c ∈ a.toList ↔ c ∈ a.toSet
  grow?_some : ∀ {a b : ColorSet}, a.InDomain n → b.InDomain n →
    (b.toSet ⊆ a.toSet ∧ (Algebra.explicit n).grow? (some a) b = .ok none) ∨
      (¬b.toSet ⊆ a.toSet ∧ ∃ r, (Algebra.explicit n).grow? (some a) b = .ok (some r) ∧ r.InDomain n ∧
        r.toSet = a.toSet ∪ b.toSet)
  grow?_none : ∀ {b : ColorSet}, b.InDomain n → (b.toSet = ∅ ∧ (Algebra.explicit n).grow? none b = .ok none) ∨
    (b.toSet.Nonempty ∧ (Algebra.explicit n).grow? none b = .ok (some b))

end ColoredCtl.Color

import ColoredCtl.Proofs.Color.Explicit
import ColoredCtl.Proofs.State.Views

/-!
Trees of views.

A tree says how a map is put together from others: the leaves are maps, and the nodes are views. What
a tree stands for is told from its leaves alone, by the operations on sets, state by state
(`ViewTree.contains`, `ViewTree.colorsAt`). A view keeps the states it may have a value at from the
time it is made and computes its values when asked, so all that can be asked of it has to agree:
`ViewTree.Renders` says what that comes to.
-/

namespace ColoredCtl.StateMap

open Color

variable {C : Type} {A : Algebra C} {R : Reading A} {n : Nat}

/-- How a map is put together from maps by views. -/
inductive ViewTree (C : Type) where
  | leaf (m : StateMap C)
  | inter (left right : ViewTree C)
  | union (left right : ViewTree C)
  | diff (whole part : ViewTree C)

namespace ViewTree

/-- The views, made from the leaves up. -/
def build : ViewTree C → Except Misuse (StateMap C)
  | .leaf m => .ok m
  | .inter left right => do
    let m ← left.build
    let k ← right.build
    m.inter k
  | .union left right => do
    let m ← left.build
    let k ← right.build
    m.union k
  | .diff whole part => do
    let m ← whole.build
    let k ← part.build
    m.diff k

/-- Whether the root is a view. -/
def IsView : ViewTree C → Prop
  | .leaf _ => False
  | .inter _ _ | .union _ _ | .diff _ _ => True

/-- All leaves are maps over the states below `n` with values of the domain. -/
def LeavesFit (R : Reading A) (n : Nat) : ViewTree C → Prop
  | .leaf m => m.Fits R n
  | .inter left right | .union left right | .diff left right =>
    left.LeavesFit R n ∧ right.LeavesFit R n

/-- Whether there is a value at the state, told from the leaves. -/
def contains : ViewTree C → Nat → Bool
  | .leaf m, state => m.contains state
  | .inter left right, state => left.contains state && right.contains state
  | .union left right, state => left.contains state || right.contains state
  | .diff whole _, state => whole.contains state

/-- The colors at a state, told from the leaves; a missing value is the empty set. -/
def colorsAt (R : Reading A) : ViewTree C → Nat → Finset Nat
  | .leaf m, state => m.colorsAt R state
  | .inter left right, state => left.colorsAt R state ∩ right.colorsAt R state
  | .union left right, state => left.colorsAt R state ∪ right.colorsAt R state
  | .diff whole part, state => whole.colorsAt R state \ part.colorsAt R state

/-- A map is what the tree stands for, whichever way it is looked at. -/
structure Renders (R : Reading A) (n : Nat) (t : ViewTree C) (m : StateMap C) : Prop where
  contains_eq : ∀ state, m.contains state = t.contains state
  lt_of_contains : ∀ state, t.contains state = true → state < n
  domain_spec : ∃ d, m.domain = .ok d ∧ d.stateCount = n ∧ ∀ state, d.contains state = t.contains state
  get?_spec : ∀ state, ∃ value, m.get? A state = .ok value ∧ R.Accepts value ∧
    value.isSome = t.contains state ∧ R.colorsOf value = t.colorsAt R state
  states_eq : m.states = .ok ((List.range n).filter t.contains)
  sizeHint_eq : m.sizeHint = ((List.range n).filter t.contains).length
  /-- The entries are the values that are not empty, in order of the states. -/
  entries_spec : ∃ entries, m.entries A = .ok entries ∧
    entries.map (·.1) = (List.range n).filter (fun state => decide (t.colorsAt R state).Nonempty) ∧
    ∀ state a, (state, a) ∈ entries → m.get? A state = .ok (some a)
  /-- The copy has the values that are not empty; it fails only where no table is that large. -/
  materialize_spec : ∃ table : Std.TreeMap Nat C,
    m.materialize A = (if m.sizeHint ≤ Capacity.tableLimit then .ok (.sparse table n)
      else .error .tableCapacity) ∧
    ∀ state a, table[state]? = some a ↔
      m.get? A state = .ok (some a) ∧ (t.colorsAt R state).Nonempty

/-- Making the views of a tree succeeds, and gives a view of the space that has the states and the
colors the tree stands for. -/
theorem build_spec (hn : n ≤ Word.bound) {t : ViewTree C} (ht : t.LeavesFit R n) :
    ∃ m, t.build = .ok m ∧ m.Fits R n ∧ (∀ state, m.contains state = t.contains state) ∧
      ∀ state, m.colorsAt R state = t.colorsAt R state := by
  induction t with
  | leaf m => exact ⟨m, rfl, ht, fun _ => rfl, fun _ => rfl⟩
  | inter left right ihl ihr =>
    obtain ⟨m, hm, hmfits, hmcontains, hmcolors⟩ := ihl ht.1
    obtain ⟨k, hk, hkfits, hkcontains, hkcolors⟩ := ihr ht.2
    obtain ⟨r, hr, hfits, hcontains, hcolors⟩ := hmfits.inter_spec hkfits hn
    refine ⟨r, by simp [build, hm, hk, hr], hfits, ?_, ?_⟩
    · intro state
      rw [hcontains, hmcontains, hkcontains, contains]
    · intro state
      rw [hcolors, hmcolors, hkcolors, colorsAt]
  | union left right ihl ihr =>
    obtain ⟨m, hm, hmfits, hmcontains, hmcolors⟩ := ihl ht.1
    obtain ⟨k, hk, hkfits, hkcontains, hkcolors⟩ := ihr ht.2
    obtain ⟨r, hr, hfits, hcontains, hcolors⟩ := hmfits.union_spec hkfits hn
    refine ⟨r, by simp [build, hm, hk, hr], hfits, ?_, ?_⟩
    · intro state
      rw [hcontains, hmcontains, hkcontains, contains]
    · intro state
      rw [hcolors, hmcolors, hkcolors, colorsAt]
  | diff whole part ihw ihp =>
    obtain ⟨m, hm, hmfits, hmcontains, hmcolors⟩ := ihw ht.1
    obtain ⟨k, hk, hkfits, _, hkcolors⟩ := ihp ht.2
    obtain ⟨r, hr, hfits, hcontains, hcolors⟩ := hmfits.diff_spec hkfits hn
    refine ⟨r, by simp [build, hm, hk, hr], hfits, ?_, ?_⟩
    · intro state
      rw [hcontains, hmcontains, contains]
    · intro state
      rw [hcolors, hmcolors, hkcolors, colorsAt]

end ViewTree

/-- Whether the map is a view. -/
def IsView : StateMap C → Prop
  | .interView _ _ _ | .unionView _ _ _ | .diffView _ _ _ => True
  | _ => False

theorem isView_of_inter {m k r : StateMap C} (h : m.inter k = .ok r) : r.IsView := by
  obtain ⟨a, _, h⟩ := bind_eq_ok_iff.1 h
  obtain ⟨b, _, h⟩ := bind_eq_ok_iff.1 h
  obtain ⟨d, _, h⟩ := bind_eq_ok_iff.1 h
  cases h
  trivial

theorem isView_of_union {m k r : StateMap C} (h : m.union k = .ok r) : r.IsView := by
  obtain ⟨a, _, h⟩ := bind_eq_ok_iff.1 h
  obtain ⟨b, _, h⟩ := bind_eq_ok_iff.1 h
  obtain ⟨d, _, h⟩ := bind_eq_ok_iff.1 h
  cases h
  trivial

theorem isView_of_diff {m k r : StateMap C} (h : m.diff k = .ok r) : r.IsView := by
  obtain ⟨d, _, h⟩ := bind_eq_ok_iff.1 h
  cases h
  trivial

/-- A view is listed by the states it keeps. -/
theorem IsView.listing {m : StateMap C} (h : m.IsView) (A : Algebra C) : ∃ d : StateSet,
    m.domain = .ok d ∧ m.stateCount = d.stateCount ∧ (∀ state, d.contains state = m.contains state) ∧
      m.states = .ok d.toList ∧ m.sizeHint = d.toList.length ∧ m.entries A = m.viewEntries A d := by
  cases m with
  | interView left right domain => exact ⟨domain, rfl, rfl, fun _ => rfl, rfl, rfl, rfl⟩
  | unionView left right domain => exact ⟨domain, rfl, rfl, fun _ => rfl, rfl, rfl, rfl⟩
  | diffView whole part domain => exact ⟨domain, rfl, rfl, fun _ => rfl, rfl, rfl, rfl⟩
  | _ => exact h.elim

namespace ViewTree

/-- What a view at the root makes is a view. -/
theorem IsView.of_build {t : ViewTree C} {m : StateMap C} (h : t.IsView) (hm : t.build = .ok m) :
    m.IsView := by
  cases t with
  | leaf m => exact h.elim
  | inter left right =>
    obtain ⟨a, _, hm⟩ := bind_eq_ok_iff.1 hm
    obtain ⟨b, _, hm⟩ := bind_eq_ok_iff.1 hm
    exact isView_of_inter hm
  | union left right =>
    obtain ⟨a, _, hm⟩ := bind_eq_ok_iff.1 hm
    obtain ⟨b, _, hm⟩ := bind_eq_ok_iff.1 hm
    exact isView_of_union hm
  | diff whole part =>
    obtain ⟨a, _, hm⟩ := bind_eq_ok_iff.1 hm
    obtain ⟨b, _, hm⟩ := bind_eq_ok_iff.1 hm
    exact isView_of_diff hm

/-- Every tree of views over maps of one space can be made, and is the operations on sets, state by
state, however deep it is. -/
theorem exists_renders (hn : n ≤ Word.bound) {t : ViewTree C} (hview : t.IsView)
    (ht : t.LeavesFit R n) : ∃ m, t.build = .ok m ∧ t.Renders R n m := by
  obtain ⟨m, hm, hfits, hcontains, hcolors⟩ := build_spec hn ht
  obtain ⟨d, hdomain, hcount, hd, hstates, hsize, hview⟩ := (hview.of_build hm).listing A
  have hdcontains (state : Nat) : d.contains state = t.contains state :=
    (hd state).trans (hcontains state)
  have hdcount : d.stateCount = n := hcount.symm.trans hfits.stateCount_eq
  have hkept : d.toList = (List.range n).filter t.contains := by
    rw [d.toList_eq, hdcount]
    exact congrArg (List.filter · _) (funext hdcontains)
  obtain ⟨entries, hentries, hlists, hnonempty⟩ := hfits.valued.viewEntries_spec d hd
  have hcolorsOf {state : Nat} {a : C} (ha : m.get? A state = .ok (some a)) :
      t.colorsAt R state = R.colors a := by
    rw [← hcolors, StateMap.colorsAt_eq ha, R.colorsOf_some]
  refine ⟨m, hm, hcontains, ?_, ⟨d, hdomain, hdcount, hdcontains⟩, ?_, hkept ▸ hstates,
    hkept ▸ hsize, ⟨entries, hview.trans hentries, ?_, fun _ _ => hlists.get?_eq⟩, ?_⟩
  · intro state hin
    exact hfits.lt_of_contains ((hcontains state).trans hin)
  · intro state
    obtain ⟨value, hvalue, haccepts, hsome⟩ := hfits.get?_spec state
    exact ⟨value, hvalue, haccepts, hsome.trans (hcontains state),
      (StateMap.colorsAt_eq hvalue).symm.trans (hcolors state)⟩
  · refine eq_range_filter hlists.inOrder ?_
    intro state
    rw [decide_eq_true_iff, List.mem_map]
    constructor
    · rintro ⟨⟨_, a⟩, hmem, rfl⟩
      have hget := hlists.get?_eq hmem
      exact ⟨hfits.lt_of_contains (hfits.contains_iff.2 ⟨a, hget⟩), hcolorsOf hget ▸ hnonempty _ a hmem⟩
    · rintro ⟨_, c, hc⟩
      rw [← hcolors] at hc
      obtain ⟨a, hget, hc⟩ := mem_colorsAt_iff.1 hc
      exact ⟨(state, a), hlists.mem_of_nonempty hget ⟨c, hc⟩, rfl⟩
  · obtain ⟨kept, hkept, horder, hmem⟩ := hfits.valued.materialize_eq (hview.trans hentries) hlists
    rw [hfits.stateCount_eq] at hkept
    have hkeys : (kept.map (·.1)).Nodup := horder.imp fun hlt => Nat.ne_of_lt hlt
    have hcopy := (ofEntries_spec (R := R) hkeys fun state a hin =>
      have hget := ((hmem state a).1 hin).1
      ⟨hfits.lt_of_contains (hfits.contains_iff.2 ⟨a, hget⟩), hfits.inDomain hget⟩).2
    obtain ⟨table, htable⟩ : ∃ table, ofEntries kept n = .sparse table n := ⟨_, rfl⟩
    refine ⟨table, ?_, ?_⟩
    · rw [hkept, htable, Capacity.reserveTable]
      split <;> rfl
    · intro state a
      have hstored := hcopy state a
      rw [htable, StateMap.get?, Except.ok.injEq] at hstored
      rw [hstored, hmem]
      exact and_congr_right fun hget => by rw [hcolorsOf hget]

/-- A view of views over a leaf of each layout, with values that become empty on the way. -/
theorem exists_renders_layouts :
    let t : ViewTree ColorSet :=
      .diff (.union (.leaf (.dense 1 #[some (.full 3), none, some (.empty 3)] 4))
          (.inter (.leaf (.span ⟨0, 3⟩ (.full 3) 4)) (.leaf (.ofEntries [(0, .full 3), (2, .full 3)] 4))))
        (.union (.leaf (.single 1 (.full 3) 4))
          (.diff (.leaf (.constant ((StateSet.empty 4).add 2 (by decide)) (.full 3))) (.leaf (.empty 4))))
    4 ≤ Word.bound ∧ t.IsView ∧ t.LeavesFit (Reading.explicit 3) 4 ∧
      ∃ m, t.build = .ok m ∧ t.Renders (Reading.explicit 3) 4 m := by
  intro t
  have hbound : 4 ≤ Word.bound := by decide
  have hfull : (Reading.explicit 3).InDomain (.full 3) := ColorSet.inDomain_full 3
  have hempty : (Reading.explicit 3).InDomain (.empty 3) := ColorSet.inDomain_empty 3
  have hdense : (StateMap.dense 1 #[some (.full 3), none, some (.empty 3)] 4).Fits
      (Reading.explicit 3) 4 := by
    refine ⟨rfl, fun state a hslot => ?_⟩
    obtain ⟨i, hi, rfl⟩ := slot?_eq_some_iff.1 hslot
    obtain ⟨rfl, rfl⟩ | ⟨rfl, rfl⟩ : i = 0 ∧ a = .full 3 ∨ i = 2 ∧ a = .empty 3 := by
      simpa [slots, firstSlots] using hi
    · exact ⟨by decide, hfull⟩
    · exact ⟨by decide, hempty⟩
  have hsparse : (StateMap.ofEntries [(0, ColorSet.full 3), (2, .full 3)] 4).Fits
      (Reading.explicit 3) 4 := by
    refine (ofEntries_spec (by decide) fun state a hmem => ?_).1
    obtain ⟨rfl, rfl⟩ | ⟨rfl, rfl⟩ : state = 0 ∧ a = .full 3 ∨ state = 2 ∧ a = .full 3 := by
      simpa using hmem
    · exact ⟨by decide, hfull⟩
    · exact ⟨by decide, hfull⟩
  have hleaves : t.LeavesFit (Reading.explicit 3) 4 :=
    ⟨⟨hdense, ⟨rfl, by decide, hfull⟩, hsparse⟩, ⟨rfl, by decide, hfull⟩, ⟨rfl, hfull⟩, rfl⟩
  exact ⟨hbound, trivial, hleaves, exists_renders hbound trivial hleaves⟩

end ViewTree

end ColoredCtl.StateMap

import Mathlib.Data.Finset.Lattice.Basic
import Mathlib.Order.Interval.Finset.Nat
import ColoredCtl.Proofs.State.Sets

/-!
State sets as finite sets of states.

The operations on sets of states are those of an interface (`SetOperations`), and a run of calls keeps
many sets, makes new ones, changes them and combines them. Bitmaps have the interface, and so have finite
sets of numbers below a bound. A view of one kind of sets as another that goes along with each operation
(`SetOperations.View`) goes along with every run, so that no run can tell the two kinds apart; and a
bitmap is viewed as the set of its members.
-/

namespace ColoredCtl

section Calls

/-- What can be done with sets of states. -/
structure SetOperations (S : Type) where
  empty : Nat → S
  full : Nat → S
  ofList : Nat → List Nat → Except Misuse S
  insert : S → Nat → Except Misuse (Bool × S)
  erase : S → Nat → Bool × S
  insertSpan : S → Span → Option Misuse × S
  union : S → S → Except Misuse S
  inter : S → S → Except Misuse S

/-- A call of an operation, on sets that were made before and are told by their numbers. -/
inductive SetCall where
  | empty (stateCount : Nat)
  | full (stateCount : Nat)
  | ofList (stateCount : Nat) (states : List Nat)
  | copy (i : Nat)
  | insert (i state : Nat)
  | erase (i state : Nat)
  | insertSpan (i : Nat) (r : Span)
  | union (i j : Nat)
  | inter (i j : Nat)

/-- What is given back for a call; `missing` for one on a set that was not made. -/
inductive SetReply where
  | done
  | told (found : Bool)
  | refused (cause : Misuse)
  | missing

namespace SetOperations

variable {S T : Type}

/-- Keeps a new set, under the next number. -/
def store (sets : List S) : Except Misuse S → SetReply × List S
  | .ok s => (.done, sets ++ [s])
  | .error cause => (.refused cause, sets)

/-- A set after an operation that leaves it as it is where it fails. -/
def settle (s : S) : Except Misuse (SetReply × S) → SetReply × S
  | .ok changed => changed
  | .error cause => (.refused cause, s)

/-- Changes the set with a number. -/
def change (sets : List S) (i : Nat) (f : S → SetReply × S) : SetReply × List S :=
  match sets[i]? with
  | none => (.missing, sets)
  | some s => ((f s).1, sets.set i (f s).2)

/-- Changes a set by what another one has. -/
def combine (sets : List S) (i j : Nat) (op : S → S → Except Misuse S) : SetReply × List S :=
  match sets[j]? with
  | none => (.missing, sets)
  | some t => change sets i fun s => settle s ((op s t).map fun u => (.done, u))

/-- Makes a call. -/
def call (ops : SetOperations S) (sets : List S) : SetCall → SetReply × List S
  | .empty stateCount => store sets (.ok (ops.empty stateCount))
  | .full stateCount => store sets (.ok (ops.full stateCount))
  | .ofList stateCount states => store sets (ops.ofList stateCount states)
  | .copy i =>
    match sets[i]? with
    | none => (.missing, sets)
    | some s => store sets (.ok s)
  | .insert i state =>
    change sets i fun s => settle s ((ops.insert s state).map fun r => (.told r.1, r.2))
  | .erase i state => change sets i fun s => (.told (ops.erase s state).1, (ops.erase s state).2)
  | .insertSpan i r =>
    change sets i fun s => ((ops.insertSpan s r).1.elim .done .refused, (ops.insertSpan s r).2)
  | .union i j => combine sets i j ops.union
  | .inter i j => combine sets i j ops.inter

/-- Makes calls one after the other: all replies, and the sets as they are in the end. -/
def replay (ops : SetOperations S) : List S → List SetCall → List SetReply × List S
  | sets, [] => ([], sets)
  | sets, c :: calls =>
    let (reply, next) := ops.call sets c
    let (replies, last) := ops.replay next calls
    (reply :: replies, last)

/-- A view of sets as sets of another kind, with the same operations. -/
structure View (ops : SetOperations S) (spec : SetOperations T) (view : S → T) : Prop where
  empty : ∀ n, view (ops.empty n) = spec.empty n
  full : ∀ n, view (ops.full n) = spec.full n
  ofList : ∀ n states, (ops.ofList n states).map view = spec.ofList n states
  insert : ∀ s state, (ops.insert s state).map (Prod.map id view) = spec.insert (view s) state
  erase : ∀ s state, Prod.map id view (ops.erase s state) = spec.erase (view s) state
  insertSpan : ∀ s r, Prod.map id view (ops.insertSpan s r) = spec.insertSpan (view s) r
  union : ∀ s t, (ops.union s t).map view = spec.union (view s) (view t)
  inter : ∀ s t, (ops.inter s t).map view = spec.inter (view s) (view t)

section View

variable {ops : SetOperations S} {spec : SetOperations T} {view : S → T}

theorem store_map (sets : List S) (made : Except Misuse S) :
    store (sets.map view) (made.map view) = Prod.map id (List.map view) (store sets made) := by
  cases made with
  | error cause => rfl
  | ok s => simp [store, Except.map]

theorem settle_map (s : S) (changed : Except Misuse (SetReply × S)) :
    settle (view s) (changed.map (Prod.map id view)) = Prod.map id view (settle s changed) := by
  cases changed <;> rfl

theorem change_map (sets : List S) (i : Nat) {f : S → SetReply × S} {g : T → SetReply × T}
    (h : ∀ s, g (view s) = Prod.map id view (f s)) :
    change (sets.map view) i g = Prod.map id (List.map view) (change sets i f) := by
  rw [change, change, List.getElem?_map]
  cases sets[i]? with
  | none => rfl
  | some s => simp [h, List.map_set]

theorem combine_map (sets : List S) (i j : Nat) {op : S → S → Except Misuse S}
    {op' : T → T → Except Misuse T} (h : ∀ s t, (op s t).map view = op' (view s) (view t)) :
    combine (sets.map view) i j op' = Prod.map id (List.map view) (combine sets i j op) := by
  rw [combine, combine, List.getElem?_map]
  cases sets[j]? with
  | none => rfl
  | some t =>
    apply change_map
    intro s
    rw [← settle_map, ← h]
    cases op s t <;> rfl

/-- A call goes along with the view. -/
theorem View.call_map (h : View ops spec view) (sets : List S) (c : SetCall) :
    spec.call (sets.map view) c = Prod.map id (List.map view) (ops.call sets c) := by
  cases c with
  | empty n => rw [call, call, ← h.empty, ← store_map, Except.map]
  | full n => rw [call, call, ← h.full, ← store_map, Except.map]
  | ofList n states => rw [call, call, ← h.ofList, store_map]
  | copy i =>
    rw [call, call, List.getElem?_map]
    cases sets[i]? with
    | none => rfl
    | some s => exact store_map sets (.ok s)
  | insert i state =>
    apply change_map
    intro s
    rw [← settle_map, ← h.insert]
    cases ops.insert s state <;> rfl
  | erase i state =>
    apply change_map
    intro s
    rw [← h.erase]
    rfl
  | insertSpan i r =>
    apply change_map
    intro s
    rw [← h.insertSpan]
    rfl
  | union i j => exact combine_map sets i j h.union
  | inter i j => exact combine_map sets i j h.inter

/-- A run goes along with the view: the replies are the same, and so are the sets in the end, as they
are viewed. -/
theorem View.replay_map (h : View ops spec view) (sets : List S) (calls : List SetCall) :
    spec.replay (sets.map view) calls = Prod.map id (List.map view) (ops.replay sets calls) := by
  induction calls generalizing sets with
  | nil => rfl
  | cons c calls ih =>
    simp only [replay, h.call_map, Prod.map_fst, Prod.map_snd, ih]
    rfl

end View

end SetOperations

end Calls

section Subsets

/-- A finite set of states below `stateCount`. -/
@[ext] structure StateSubset where
  stateCount : Nat
  members : Finset Nat
  inside : ∀ state ∈ members, state < stateCount

namespace StateSubset

def empty (stateCount : Nat) : StateSubset := ⟨stateCount, ∅, by simp⟩

def full (stateCount : Nat) : StateSubset := ⟨stateCount, Finset.range stateCount, by simp⟩

/-- The listed states, or the first of them that is not in the space. -/
def ofList (stateCount : Nat) (states : List Nat) : Except Misuse StateSubset :=
  if h : ∀ state ∈ states, state < stateCount then
    .ok ⟨stateCount, states.toFinset, by simpa using h⟩
  else .error (.stateOutside ((states.find? fun state => decide (stateCount ≤ state)).getD 0) stateCount)

/-- Adds a state, and tells whether it was not a member. -/
def insert (a : StateSubset) (state : Nat) : Except Misuse (Bool × StateSubset) :=
  if h : state < a.stateCount then
    .ok (decide (state ∉ a.members), ⟨a.stateCount, Insert.insert state a.members, by
      simpa [h] using a.inside⟩)
  else .error (.stateOutside state a.stateCount)

/-- Removes a state, and tells whether it was a member. -/
def erase (a : StateSubset) (state : Nat) : Bool × StateSubset :=
  (decide (state ∈ a.members), ⟨a.stateCount, a.members.erase state, fun other hother =>
    a.inside other (Finset.mem_of_mem_erase hother)⟩)

/-- Adds the states of a span that the space has, and fails if the span has others. -/
def insertSpan (a : StateSubset) (r : Span) : Option Misuse × StateSubset :=
  (if r.start < r.stop ∧ a.stateCount < r.stop then
      some (.stateOutside (max r.start a.stateCount) a.stateCount)
    else none,
    ⟨a.stateCount, a.members ∪ {state ∈ Finset.Ico r.start r.stop | state < a.stateCount}, by
      intro state hstate
      rw [Finset.mem_union, Finset.mem_filter] at hstate
      exact hstate.elim (a.inside state) And.right⟩)

def union (a b : StateSubset) : Except Misuse StateSubset :=
  if h : a.stateCount = b.stateCount then
    .ok ⟨a.stateCount, a.members ∪ b.members, by
      intro state hstate
      rw [Finset.mem_union] at hstate
      exact hstate.elim (a.inside state) fun hb => h ▸ b.inside state hb⟩
  else .error (.stateSpaces a.stateCount b.stateCount)

def inter (a b : StateSubset) : Except Misuse StateSubset :=
  if a.stateCount = b.stateCount then
    .ok ⟨a.stateCount, a.members ∩ b.members, fun state hstate =>
      a.inside state (Finset.mem_of_mem_inter_left hstate)⟩
  else .error (.stateSpaces a.stateCount b.stateCount)

def operations : SetOperations StateSubset :=
  { empty, full, ofList, insert, erase, insertSpan, union, inter }

end StateSubset

end Subsets

namespace StateSet

def operations : SetOperations StateSet :=
  { empty, full, ofList, insert, erase, insertSpan, union, inter }

/-- The set of the members. -/
def view (s : StateSet) : StateSubset where
  stateCount := s.stateCount
  members := s.toList.toFinset
  inside state h := lt_of_contains ((mem_toList s state).1 (List.mem_toFinset.1 h))

@[simp] theorem mem_view {s : StateSet} {state : Nat} :
    state ∈ s.view.members ↔ s.contains state = true := by
  rw [view, List.mem_toFinset, mem_toList]

/-- A set of states is viewed as the finite set over its space with the same members. -/
theorem view_eq_iff {s : StateSet} {a : StateSubset} :
    s.view = a ↔ s.stateCount = a.stateCount ∧ ∀ state, s.contains state = true ↔ state ∈ a.members := by
  constructor
  · rintro rfl
    exact ⟨rfl, fun state => mem_view.symm⟩
  · rintro ⟨hcount, hmem⟩
    refine StateSubset.ext hcount (Finset.ext fun state => ?_)
    rw [mem_view, hmem]

/-- Inserting one after the other stops at the first state outside of the space. -/
theorem foldlM_insert_error {states : List Nat} {s : StateSet} {state : Nat}
    (h : states.find? (fun state => decide (s.stateCount ≤ state)) = some state) :
    states.foldlM (fun s state => do return (← s.insert state).2) s =
      (.error (.stateOutside state s.stateCount) : Except Misuse StateSet) := by
  induction states generalizing s with
  | nil => cases h
  | cons first states ih =>
    rw [List.foldlM_cons]
    by_cases hfirst : first < s.stateCount
    · rw [List.find?_cons_of_neg (by simpa using hfirst)] at h
      rw [insert_eq s hfirst]
      exact ih h
    · rw [List.find?_cons_of_pos (by simpa using hfirst)] at h
      cases h
      rw [insert, dif_neg hfirst]
      rfl

theorem view_ofList (n : Nat) (states : List Nat) :
    (ofList n states).map view = StateSubset.ofList n states := by
  by_cases h : ∀ state ∈ states, state < n
  · obtain ⟨s, hs, hcount, hcontains⟩ := ofList_spec h
    rw [hs, StateSubset.ofList, dif_pos h]
    refine congrArg Except.ok (view_eq_iff.2 ⟨hcount, fun state => ?_⟩)
    rw [hcontains, List.mem_toFinset]
  · obtain ⟨state, hfind⟩ : ∃ state, states.find? (fun state => decide (n ≤ state)) = some state := by
      rw [← Option.isSome_iff_exists, List.find?_isSome]
      simpa using h
    have herror : ofList n states = .error (.stateOutside state n) :=
      foldlM_insert_error (s := empty n) hfind
    rw [herror, StateSubset.ofList, dif_neg h, hfind]
    rfl

theorem view_insert (s : StateSet) (state : Nat) :
    (s.insert state).map (Prod.map id view) = s.view.insert state := by
  by_cases h : state < s.stateCount
  · rw [insert_eq s h, StateSubset.insert, dif_pos (show state < s.view.stateCount from h)]
    refine congrArg Except.ok (Prod.ext ?_ (view_eq_iff.2 ⟨rfl, fun other => ?_⟩))
    · simp
    · rw [contains_add, Bool.or_eq_true, decide_eq_true_eq, Finset.mem_insert, mem_view, or_comm, eq_comm]
  · rw [insert, dif_neg h, StateSubset.insert, dif_neg (show ¬state < s.view.stateCount from h)]
    rfl

theorem view_erase (s : StateSet) (state : Nat) :
    Prod.map id view (s.erase state) = s.view.erase state := by
  refine Prod.ext ?_ (view_eq_iff.2 ⟨rfl, fun other => ?_⟩)
  · simp [erase, StateSubset.erase]
  · rw [StateSubset.erase, Finset.mem_erase, mem_view, and_comm, ne_comm]
    rw [contains_without, Bool.and_eq_true, Bool.not_eq_true', decide_eq_false_iff_not]

theorem view_insertSpan (s : StateSet) (r : Span) :
    Prod.map id view (s.insertSpan r) = s.view.insertSpan r := by
  refine Prod.ext ?_ (view_eq_iff.2 ⟨rfl, fun other => ?_⟩)
  · refine if_congr ?_ rfl rfl
    simp [Span.isEmpty, view]
  · rw [StateSubset.insertSpan, Finset.mem_union, Finset.mem_filter, Finset.mem_Ico, mem_view]
    rw [contains_addSpan, Bool.or_eq_true, Bool.and_eq_true, Span.contains_iff, decide_eq_true_eq]
    rfl

theorem view_union (s t : StateSet) : (s.union t).map view = s.view.union t.view := by
  by_cases h : s.stateCount = t.stateCount
  · obtain ⟨u, hu, hcount, hcontains⟩ := union_spec h
    rw [hu, StateSubset.union, dif_pos (show s.view.stateCount = t.view.stateCount from h)]
    refine congrArg Except.ok (view_eq_iff.2 ⟨hcount, fun state => ?_⟩)
    simp [hcontains]
  · rw [union, dif_neg h, StateSubset.union, dif_neg (show ¬s.view.stateCount = t.view.stateCount from h)]
    rfl

theorem view_inter (s t : StateSet) : (s.inter t).map view = s.view.inter t.view := by
  by_cases h : s.stateCount = t.stateCount
  · obtain ⟨u, hu, hcount, hcontains⟩ := inter_spec h
    rw [hu, StateSubset.inter, if_pos (show s.view.stateCount = t.view.stateCount from h)]
    refine congrArg Except.ok (view_eq_iff.2 ⟨hcount, fun state => ?_⟩)
    simp [hcontains]
  · rw [inter, dif_neg h, StateSubset.inter, if_neg (show ¬s.view.stateCount = t.view.stateCount from h)]
    rfl

theorem operations_view : SetOperations.View operations StateSubset.operations view where
  empty n := view_eq_iff.2 ⟨rfl, fun state => by simp [operations, StateSubset.operations, StateSubset.empty]⟩
  full n := view_eq_iff.2 ⟨rfl, fun state => by simp [operations, StateSubset.operations, StateSubset.full]⟩
  ofList := view_ofList
  insert := view_insert
  erase := view_erase
  insertSpan := view_insertSpan
  union := view_union
  inter := view_inter

/-- Inserts states one after the other, up to the first that is refused. -/
def insertEach (s : StateSet) : List Nat → Option Misuse × StateSet
  | [] => (none, s)
  | state :: states =>
    match s.insert state with
    | .ok (_, next) => next.insertEach states
    | .error cause => (some cause, s)

/-- Adding a span goes on after its first state as adding the rest of the span. -/
theorem insertSpan_cons {s : StateSet} {start stop : Nat} (hlt : start < stop) (h : start < s.stateCount) :
    s.insertSpan ⟨start, stop⟩ = (s.add start h).insertSpan ⟨start + 1, stop⟩ := by
  refine Prod.ext ?_ (ext rfl fun state => ?_)
  · have hmax : max start s.stateCount = max (start + 1) s.stateCount := by omega
    simp only [insertSpan, hmax]
    refine if_congr ?_ rfl rfl
    simp only [Span.isEmpty, Bool.and_eq_true, Bool.not_eq_true', decide_eq_false_iff_not,
      decide_eq_true_eq]
    exact and_congr_left fun (hout : s.stateCount < stop) => by omega
  · rw [Bool.eq_iff_iff]
    simp only [insertSpan, contains_addSpan, contains_add, Bool.or_eq_true, Bool.and_eq_true,
      Span.contains_iff, decide_eq_true_eq]
    rw [or_assoc]
    refine or_congr_right ?_
    change _ ↔ start = state ∨ (start + 1 ≤ state ∧ state < stop) ∧ state < s.stateCount
    omega

/-- A span with no state of the space adds nothing. -/
theorem addSpan_eq_self {s : StateSet} {r : Span} (h : s.stateCount ≤ r.start ∨ r.stop ≤ r.start) :
    s.addSpan r = s := by
  refine ext rfl fun state => ?_
  rw [contains_addSpan, Bool.eq_iff_iff, Bool.or_eq_true, Bool.and_eq_true, Span.contains_iff,
    decide_eq_true_eq]
  exact or_iff_left (by omega)

/-- Adding a span is adding its states in order. -/
theorem insertEach_span (s : StateSet) (r : Span) : s.insertEach r.toList = s.insertSpan r := by
  obtain ⟨start, stop⟩ := r
  induction hlength : stop - start generalizing s start with
  | zero =>
    have hle : stop ≤ start := Nat.sub_eq_zero_iff_le.1 hlength
    rw [insertSpan, addSpan_eq_self (.inr hle)]
    simp [insertEach, Span.toList, Span.length, Span.isEmpty, hlength, hle]
  | succ length ih =>
    have hlt : start < stop := by omega
    have hrest : stop - (start + 1) = length := by omega
    have hlist : (⟨start, stop⟩ : Span).toList = start :: (⟨start + 1, stop⟩ : Span).toList := by
      simp only [Span.toList, Span.length, hlength, hrest, List.range'_succ]
    rw [hlist, insertEach]
    by_cases h : start < s.stateCount
    · rw [insert_eq s h, insertSpan_cons hlt h]
      exact ih _ _ hrest
    · have hout : s.stateCount < stop := by omega
      rw [insert, dif_neg h, insertSpan, addSpan_eq_self (.inl (Nat.not_lt.1 h)),
        Nat.max_eq_left (Nat.not_lt.1 h)]
      simp [Span.isEmpty, hlt, hout]

/-- A bitmap has the words for its space, bits for the members and no others, and tells the set. -/
structure Represents (s : StateSet) (a : StateSubset) : Prop where
  stateCount_eq : s.stateCount = a.stateCount
  size_words : s.bits.words.size = (a.stateCount + 63) / 64
  lt_of_testBit : ∀ k bit, (s.bits.words.getD k 0).testBit bit = true → 64 * k + bit < a.stateCount
  contains_iff : ∀ state, s.contains state = true ↔ state ∈ a.members
  size_eq : s.size = a.members.card
  isEmpty_iff : s.isEmpty = true ↔ a.members = ∅
  increasing : s.toList.Pairwise (· < ·)
  mem_toList_iff : ∀ state, state ∈ s.toList ↔ state ∈ a.members
  outside : ∀ state, a.stateCount ≤ state → s.contains state = false ∧ s.erase state = (false, s)
  insert_error_iff : ∀ state, (∃ cause, s.insert state = .error cause) ↔ a.stateCount ≤ state
  insertSpan_eq : ∀ r, s.insertSpan r = s.insertEach r.toList

theorem lt_of_testBit {s : StateSet} {k bit : Nat}
    (h : (s.bits.words.getD k 0).testBit bit = true) : 64 * k + bit < s.stateCount := by
  apply s.inside
  have hword : s.bits.words.getD k 0 < 1 <<< 64 := by
    rw [Array.getD_eq_getD_getElem?]
    by_cases hk : k < s.bits.words.size
    · simpa [hk] using s.bits.isLt k hk
    · simp [Array.getElem?_eq_none (Nat.le_of_not_lt hk)]
  have hbit := Mask.lt_of_testBit hword h
  rwa [Bitmap.get, show (64 * k + bit) / 64 = k by omega, show (64 * k + bit) % 64 = bit by omega]

theorem pairwise_toList (s : StateSet) : s.toList.Pairwise (· < ·) := by
  rw [toList_eq]
  exact pairwise_lt_range_filter s.contains s.stateCount

theorem not_contains_of_le {s : StateSet} {state : Nat} (h : s.stateCount ≤ state) :
    s.contains state = false := by
  rw [← Bool.not_eq_true]
  exact fun hcontains => Nat.not_lt.2 h (lt_of_contains hcontains)

theorem erase_of_le {s : StateSet} {state : Nat} (h : s.stateCount ≤ state) :
    s.erase state = (false, s) := by
  have hsame : s.without state = s := by
    refine ext rfl fun other => ?_
    rw [contains_without]
    cases hother : s.contains other with
    | false => rfl
    | true =>
      have hne : state ≠ other := Nat.ne_of_gt (Nat.lt_of_lt_of_le (lt_of_contains hother) h)
      simp [hne]
  rw [erase, not_contains_of_le h, hsame]

theorem represents_view (s : StateSet) : s.Represents s.view where
  stateCount_eq := rfl
  size_words := s.room
  lt_of_testBit _ _ := lt_of_testBit
  contains_iff _ := mem_view.symm
  size_eq := (List.toFinset_card_of_nodup (s.pairwise_toList.imp Nat.ne_of_lt)).symm
  isEmpty_iff := by
    rw [isEmpty_iff, Finset.eq_empty_iff_forall_notMem]
    simp
  increasing := s.pairwise_toList
  mem_toList_iff _ := List.mem_toFinset.symm
  outside _ h := ⟨not_contains_of_le h, erase_of_le h⟩
  insert_error_iff state := by
    by_cases h : state < s.stateCount
    · simp [insert_eq s h, view, h]
    · simp [insert, h, view, Nat.not_lt.1 h]
  insertSpan_eq r := (s.insertEach_span r).symm

/-- Whatever is done with sets of states, each reply is that of the same call on finite sets of states,
and the sets that come out are those finite sets. -/
theorem calls_on_finite_sets (calls : List SetCall) :
    (operations.replay [] calls).1 = (StateSubset.operations.replay [] calls).1 ∧
    List.Forall₂ Represents (operations.replay [] calls).2 (StateSubset.operations.replay [] calls).2 ∧
    ∀ s ∈ (operations.replay [] calls).2, ∀ t ∈ (operations.replay [] calls).2,
      (s == t) = true ↔ s.stateCount = t.stateCount ∧ ∀ state, s.contains state = t.contains state := by
  have hreplay := operations_view.replay_map [] calls
  rw [List.map_nil] at hreplay
  rw [hreplay]
  refine ⟨rfl, ?_, fun s _ t _ => ?_⟩
  · exact List.forall₂_map_right_iff.2 (List.forall₂_same.2 fun s _ => s.represents_view)
  · rw [beq_iff_eq]
    exact ⟨fun h => h ▸ ⟨rfl, fun _ => rfl⟩, fun h => ext h.1 h.2⟩

end StateSet

end ColoredCtl

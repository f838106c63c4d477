import ColoredCtl.Proofs.Color.Truth
import ColoredCtl.Proofs.State.Growth

/-!
Growing maps over any number of calls.

A history is a list of calls, each of which adds a value at a state or takes all entries out. What a
map holds after a history is told by the values that were added since the last time all was taken out:
at each state their union (`Holds`), and so are the replies to the calls (`Answered`). Neither speaks
of the layout, and both leave nothing open, so the two layouts cannot be told apart.
-/

namespace ColoredCtl.Accumulator

open Color

variable {C : Type} {A : Algebra C} {R : Reading A} {n : Nat}

section Size

theorem contains_eq (acc : Accumulator C) (state : Nat) :
    acc.contains state = (acc.get? state).isSome := by
  cases acc with
  | dense start values filled count => rfl
  | sparse values count => simp [contains, get?]

/-- The counter of a dense map goes up when a slot gets its first value, as the size of a table does. -/
theorem sizeHint_set (acc : Accumulator C) (state : Nat) (value : C) :
    (acc.set state value).sizeHint =
      if acc.contains state then acc.sizeHint else acc.sizeHint + 1 := by
  cases acc with
  | dense start values filled count =>
    rw [set, sizeHint, contains, sizeHint]
    cases StateMap.slot? start values state <;> rfl
  | sparse values count =>
    simp only [set, sizeHint, contains, Std.TreeMap.size_insert, Std.TreeMap.contains_iff_mem]

theorem nodup_keys (acc : Accumulator C) : (acc.entries.map (·.1)).Nodup :=
  acc.inOrder_entries.imp fun hlt => Nat.ne_of_lt hlt

theorem mem_keys {acc : Accumulator C} {state : Nat} :
    state ∈ acc.entries.map (·.1) ↔ acc.contains state = true := by
  rw [contains_eq, Option.isSome_iff_exists, List.mem_map]
  constructor
  · rintro ⟨⟨_, a⟩, hmem, rfl⟩
    exact ⟨a, mem_entries.1 hmem⟩
  · rintro ⟨a, ha⟩
    exact ⟨(state, a), mem_entries.2 ha, rfl⟩

theorem length_entries (acc : Accumulator C) :
    acc.entries.length = (acc.entries.map (·.1)).toFinset.card := by
  rw [List.toFinset_card_of_nodup acc.nodup_keys, List.length_map]

theorem length_entries_set (acc : Accumulator C) {state : Nat} (value : C)
    (hrange : acc.range.contains state = true) :
    (acc.set state value).entries.length =
      if acc.contains state then acc.entries.length else acc.entries.length + 1 := by
  have hkeys : ((acc.set state value).entries.map (·.1)).toFinset =
      insert state (acc.entries.map (·.1)).toFinset := by
    ext other
    rw [Finset.mem_insert, List.mem_toFinset, List.mem_toFinset, mem_keys, mem_keys, contains_eq,
      contains_eq, get?_set acc value hrange]
    by_cases heq : state = other
    · simp [heq]
    · simp [heq, Ne.symm heq]
  rw [length_entries, length_entries, hkeys]
  by_cases hin : acc.contains state = true
  · rw [if_pos hin, Finset.insert_eq_of_mem (List.mem_toFinset.2 (mem_keys.2 hin))]
  · rw [if_neg hin, Finset.card_insert_of_notMem]
    rwa [List.mem_toFinset, mem_keys]

/-- The counter tells how many entries there are. -/
def Counted (acc : Accumulator C) : Prop := acc.sizeHint = acc.entries.length

theorem Counted.set {acc : Accumulator C} (h : acc.Counted) {state : Nat}
    (hrange : acc.range.contains state = true) (value : C) : (acc.set state value).Counted := by
  rw [Counted, sizeHint_set, length_entries_set acc value hrange, h]

/-- A map with no value has no entries, so its counter has to stand at zero. -/
theorem counted_of_empty {acc : Accumulator C} (hget : ∀ state, acc.get? state = none)
    (hsize : acc.sizeHint = 0) : acc.Counted := by
  have hempty := isEmpty_iff.2 hget
  rw [isEmpty, List.isEmpty_iff] at hempty
  rw [Counted, hsize, hempty, List.length_nil]

theorem counted_clear (acc : Accumulator C) : acc.clear.Counted := by
  refine counted_of_empty (fun state => get?_clear acc state) ?_
  cases acc <;> rfl

/-- What adding a value can do to a map. -/
theorem add_cases {acc next : Accumulator C} {state : Nat} {value : C} {grew : Bool}
    (h : acc.add A state value = .ok (grew, next)) :
    next = acc ∨ acc.range.contains state = true ∧ ∃ grown, next = acc.set state grown := by
  unfold add at h
  split at h
  · next hrange =>
    obtain ⟨found, _, h⟩ := bind_eq_ok_iff.1 h
    cases found with
    | none =>
      cases h
      exact .inl rfl
    | some grown =>
      cases h
      exact .inr ⟨hrange, grown, rfl⟩
  · cases h

theorem Counted.add {acc next : Accumulator C} (hcounted : acc.Counted) {state : Nat} {value : C}
    {grew : Bool} (h : acc.add A state value = .ok (grew, next)) : next.Counted := by
  obtain rfl | ⟨hrange, grown, rfl⟩ := add_cases h
  · exact hcounted
  · exact hcounted.set hrange grown

end Size

section Calls

/-- What may be done to a growing map. -/
inductive Call (C : Type) where
  | add (state : Nat) (value : C)
  | take

/-- What is given back for it. -/
inductive Reply (C : Type) where
  | grew (found : Bool)
  | taken (entries : List (Nat × C))
  | failed (cause : Failure MapError)

/-- Makes a call. One that fails gives no new map. -/
def call (A : Algebra C) (acc : Accumulator C) : Call C → Reply C × Accumulator C
  | .add state value =>
    match acc.add A state value with
    | .ok (grew, next) => (.grew grew, next)
    | .error cause => (.failed cause, acc)
  | .take => (.taken acc.entries, acc.clear)

/-- Makes calls one after the other: all replies, and the map as it is in the end. -/
def replay (A : Algebra C) : Accumulator C → List (Call C) → List (Reply C) × Accumulator C
  | acc, [] => ([], acc)
  | acc, c :: calls =>
    let (reply, next) := acc.call A c
    let (replies, last) := next.replay A calls
    (reply :: replies, last)

theorem replay_append (acc : Accumulator C) (calls more : List (Call C)) :
    acc.replay A (calls ++ more) =
      ((acc.replay A calls).1 ++ ((acc.replay A calls).2.replay A more).1,
        ((acc.replay A calls).2.replay A more).2) := by
  induction calls generalizing acc with
  | nil => rfl
  | cons c calls ih => simp only [List.cons_append, replay, ih]

/-- One call for each of the values to be added. -/
def Call.addAll (adds : List (Nat × C)) : List (Call C) := adds.map fun entry => .add entry.1 entry.2

/-- The additions that count after one more call. -/
def Call.after (adds : List (Nat × C)) : Call C → List (Nat × C)
  | .add state value => adds ++ [(state, value)]
  | .take => []

/-- The additions since the last time that all was taken out. -/
def added (calls : List (Call C)) : List (Nat × C) := calls.foldl Call.after []

/-- The union of the values added at a state. -/
def unionAt (R : Reading A) (adds : List (Nat × C)) (state : Nat) : Finset Nat :=
  (adds.filter fun entry => entry.1 == state).foldr (fun entry colors => R.colors entry.2 ∪ colors) ∅

theorem unionAt_cons (other : Nat) (value : C) (adds : List (Nat × C)) (state : Nat) :
    unionAt R ((other, value) :: adds) state =
      if other = state then R.colors value ∪ unionAt R adds state else unionAt R adds state := by
  by_cases heq : other = state
  · simp [unionAt, heq]
  · simp [unionAt, heq]

theorem mem_unionAt {adds : List (Nat × C)} {state c : Nat} :
    c ∈ unionAt R adds state ↔ ∃ a, (state, a) ∈ adds ∧ c ∈ R.colors a := by
  induction adds with
  | nil => simp [unionAt]
  | cons entry adds ih =>
    obtain ⟨other, b⟩ := entry
    rw [unionAt_cons]
    by_cases heq : other = state
    · subst heq
      rw [if_pos rfl, Finset.mem_union, ih]
      simp [or_and_right, exists_or]
    · rw [if_neg heq, ih]
      simp [Ne.symm heq]

/-- The calls add values of the domain at states of the span. -/
def Within (R : Reading A) (span : Span) (calls : List (Call C)) : Prop :=
  ∀ state value, Call.add state value ∈ calls → span.contains state = true ∧ R.InDomain value

/-- The entries to be taken out: in order, the union at each state where it is not empty. -/
structure Collects (R : Reading A) (adds entries : List (Nat × C)) : Prop where
  inOrder : InOrder entries
  colors_eq : ∀ {state a}, (state, a) ∈ entries → R.InDomain a ∧ R.colors a = unionAt R adds state
  mem_keys : ∀ {state}, state ∈ entries.map (·.1) ↔ (unionAt R adds state).Nonempty

/-- The right reply to a call, told from the additions that came before it. -/
def Call.Answered (R : Reading A) (adds : List (Nat × C)) : Call C → Reply C → Prop
  | .add state value, reply => ∃ found, reply = .grew found ∧
    (found = true ↔ unionAt R adds state ⊂ unionAt R (adds ++ [(state, value)]) state)
  | .take, reply => ∃ entries, reply = .taken entries ∧ Collects R adds entries

/-- All calls get the right replies, in their order. -/
def Answered (R : Reading A) : List (Nat × C) → List (Call C) → List (Reply C) → Prop
  | _, [], replies => replies = []
  | _, _ :: _, [] => False
  | adds, c :: calls, reply :: replies => c.Answered R adds reply ∧ Answered R (c.after adds) calls replies

end Calls

section Contents

/-- What a map is after some additions. -/
structure Holds (R : Reading A) (n : Nat) (adds : List (Nat × C)) (acc : Accumulator C) : Prop where
  fits : acc.Fits R n
  counted : acc.Counted
  colorsAt_eq : ∀ state, acc.colorsAt R state = unionAt R adds state

variable {adds adds' : List (Nat × C)} {acc acc' : Accumulator C}

theorem Holds.contains_iff (h : acc.Holds R n adds) (state : Nat) :
    acc.contains state = true ↔ (unionAt R adds state).Nonempty := by
  rw [← h.colorsAt_eq, contains_eq, colorsAt]
  cases hget : acc.get? state with
  | none => simp
  | some a => simpa using h.fits.nonempty hget

theorem Holds.collects (h : acc.Holds R n adds) : Collects R adds acc.entries := by
  refine ⟨acc.inOrder_entries, ?_, ?_⟩
  · intro state a hmem
    have hget := mem_entries.1 hmem
    refine ⟨h.fits.accepts state a hget, ?_⟩
    rw [← h.colorsAt_eq, colorsAt_of_get? hget]
  · intro state
    rw [mem_keys, h.contains_iff]

/-- The counter tells at how many states there is a value. -/
theorem Holds.sizeHint_eq (h : acc.Holds R n adds) :
    acc.sizeHint = ((List.range n).filter acc.contains).length := by
  have hkeys : acc.entries.map (·.1) = (List.range n).filter acc.contains := by
    refine eq_range_filter acc.inOrder_entries ?_
    intro state
    rw [mem_keys]
    refine ⟨fun hin => ⟨?_, hin⟩, fun hin => hin.2⟩
    refine h.fits.freeze_fits.lt_of_contains ((h.fits.contains_freeze state).2 ?_)
    rw [h.colorsAt_eq]
    exact (h.contains_iff state).1 hin
  rw [h.counted, ← hkeys, List.length_map]

theorem Holds.clear (h : acc.Holds R n adds) : acc.clear.Holds R n [] := by
  refine ⟨h.fits.clear, acc.counted_clear, ?_⟩
  intro state
  rw [colorsAt, get?_clear]
  rfl

theorem unionAt_append_singleton (state other : Nat) (value : C) :
    unionAt R (adds ++ [(state, value)]) other =
      if other = state then unionAt R adds other ∪ R.colors value else unionAt R adds other := by
  ext c
  rw [mem_unionAt]
  by_cases heq : other = state
  · subst heq
    simp [mem_unionAt, or_and_right, exists_or]
  · simp [mem_unionAt, heq]

/-- One call: the reply is right, and so is the map that comes out. -/
theorem Holds.call_spec (h : acc.Holds R n adds) (c : Call C)
    (hc : ∀ state value, c = .add state value → acc.range.contains state = true ∧ R.InDomain value) :
    ∃ reply next, acc.call A c = (reply, next) ∧ c.Answered R adds reply ∧
      next.Holds R n (c.after adds) ∧ next.range = acc.range := by
  cases c with
  | take => exact ⟨_, _, rfl, ⟨_, rfl, h.collects⟩, h.clear, range_clear acc⟩
  | add state value =>
    obtain ⟨hrange, hvalue⟩ := hc state value rfl
    obtain ⟨grew, next, hadd, hfits, hnext, hcolors, hgrew⟩ := h.fits.add_spec hrange hvalue
    refine ⟨.grew grew, next, by rw [call, hadd], ⟨grew, rfl, ?_⟩,
      ⟨hfits, h.counted.add hadd, ?_⟩, hnext⟩
    · rw [hgrew, h.colorsAt_eq, unionAt_append_singleton, if_pos rfl, Finset.ssubset_iff_subset_ne,
        Ne, eq_comm, Finset.union_eq_left]
      exact ⟨fun hnew => ⟨Finset.subset_union_left, hnew⟩, fun hnew => hnew.2⟩
    · intro other
      rw [hcolors, h.colorsAt_eq, Call.after, unionAt_append_singleton]

/-- Any number of calls, by induction on them. -/
theorem Holds.replay_spec (calls : List (Call C)) (h : acc.Holds R n adds)
    (hcalls : ∀ state value, .add state value ∈ calls →
      acc.range.contains state = true ∧ R.InDomain value) :
    Answered R adds calls (acc.replay A calls).1 ∧
      (acc.replay A calls).2.Holds R n (calls.foldl Call.after adds) ∧
      (acc.replay A calls).2.range = acc.range := by
  induction calls generalizing acc adds with
  | nil => exact ⟨rfl, h, rfl⟩
  | cons c calls ih =>
    obtain ⟨reply, next, hcall, hreply, hnext, hrange⟩ := h.call_spec c fun state value hc =>
      hcalls state value (hc ▸ List.mem_cons_self)
    obtain ⟨hreplies, hlast, hlastRange⟩ := ih hnext fun state value hmem =>
      hrange ▸ hcalls state value (List.mem_cons_of_mem c hmem)
    simp only [replay, hcall]
    exact ⟨⟨hreply, hreplies⟩, hlast, hlastRange.trans hrange⟩

/-- The colors at a state determine the value there. -/
theorem Holds.get?_eq (hR : R.Faithful) (h : acc.Holds R n adds) (h' : acc'.Holds R n adds')
    {state : Nat} (hunion : unionAt R adds state = unionAt R adds' state) :
    acc.get? state = acc'.get? state := by
  have hcolors : acc.colorsAt R state = acc'.colorsAt R state := by
    rw [h.colorsAt_eq, h'.colorsAt_eq, hunion]
  rw [colorsAt, colorsAt] at hcolors
  cases hget : acc.get? state with
  | none =>
    cases hget' : acc'.get? state with
    | none => rfl
    | some b =>
      rw [hget, hget', R.colorsOf_none, R.colorsOf_some] at hcolors
      exact absurd hcolors.symm (h'.fits.nonempty hget').ne_empty
  | some a =>
    cases hget' : acc'.get? state with
    | none =>
      rw [hget, hget', R.colorsOf_none, R.colorsOf_some] at hcolors
      exact absurd hcolors (h.fits.nonempty hget).ne_empty
    | some b =>
      rw [hget, hget', R.colorsOf_some, R.colorsOf_some] at hcolors
      exact congrArg some (hR (h.fits.accepts state a hget) (h'.fits.accepts state b hget') hcolors)

theorem Collects.unique (hR : R.Faithful) {entries entries' : List (Nat × C)}
    (h : Collects R adds entries) (h' : Collects R adds' entries')
    (hunion : ∀ state, unionAt R adds state = unionAt R adds' state) : entries = entries' := by
  -- An entry of one list has a counterpart at its state in the other, with the same colors.
  have hsub {l l' : List (Nat × C)} {k k' : List (Nat × C)} (hl : Collects R k l)
      (hl' : Collects R k' l') (hk : ∀ state, unionAt R k state = unionAt R k' state)
      (entry : Nat × C) (hentry : entry ∈ l) : entry ∈ l' := by
    obtain ⟨state, a⟩ := entry
    obtain ⟨ha, hacolors⟩ := hl.colors_eq hentry
    have hkey := hl.mem_keys.1 (List.mem_map.2 ⟨_, hentry, rfl⟩)
    rw [hk] at hkey
    obtain ⟨⟨_, b⟩, hb, rfl⟩ := List.mem_map.1 (hl'.mem_keys.2 hkey)
    obtain ⟨hbIn, hbcolors⟩ := hl'.colors_eq hb
    rwa [hR ha hbIn (hacolors.trans ((hk _).trans hbcolors.symm))]
  exact h.inOrder.ext h'.inOrder fun entry =>
    ⟨hsub h h' hunion entry, hsub h' h (fun state => (hunion state).symm) entry⟩

/-- There is one right reply to a call. -/
theorem Call.Answered.unique (hR : R.Faithful) {c : Call C} {reply reply' : Reply C}
    (h : c.Answered R adds reply) (h' : c.Answered R adds' reply')
    (hunion : ∀ state, unionAt R adds state = unionAt R adds' state) : reply = reply' := by
  cases c with
  | add state value =>
    obtain ⟨found, rfl, hfound⟩ := h
    obtain ⟨found', rfl, hfound'⟩ := h'
    rw [unionAt_append_singleton, if_pos rfl, hunion] at hfound
    rw [unionAt_append_singleton, if_pos rfl] at hfound'
    rw [Bool.eq_iff_iff.2 (hfound.trans hfound'.symm)]
  | take =>
    obtain ⟨entries, rfl, hentries⟩ := h
    obtain ⟨entries', rfl, hentries'⟩ := h'
    rw [hentries.unique hR hentries' hunion]

theorem Call.unionAt_after (c : Call C) (hunion : ∀ state, unionAt R adds state = unionAt R adds' state)
    (state : Nat) : unionAt R (c.after adds) state = unionAt R (c.after adds') state := by
  cases c with
  | add other value => rw [Call.after, Call.after, unionAt_append_singleton, unionAt_append_singleton, hunion]
  | take => rfl

/-- There is one list of right replies. -/
theorem Answered.unique (hR : R.Faithful) {calls : List (Call C)} {replies replies' : List (Reply C)}
    (h : Answered R adds calls replies) (h' : Answered R adds' calls replies')
    (hunion : ∀ state, unionAt R adds state = unionAt R adds' state) : replies = replies' := by
  induction calls generalizing adds adds' replies replies' with
  | nil =>
    cases h
    cases h'
    rfl
  | cons c calls ih =>
    cases replies with
    | nil => exact h.elim
    | cons reply replies =>
      cases replies' with
      | nil => exact h'.elim
      | cons reply' replies' =>
        rw [h.1.unique hR h'.1 hunion, ih h.2 h'.2 (c.unionAt_after hunion)]

end Contents

section Histories

/-- What a growing map does in any history of calls that starts with it. -/
structure Accumulates (R : Reading A) (n : Nat) (span : Span) (start : Accumulator C) : Prop where
  /-- The replies tell the growth of the unions and list them. -/
  answered : ∀ {calls}, Within R span calls → Answered R [] calls (start.replay A calls).1
  /-- The value at a state is the union of what was added there, and missing where that is empty. -/
  get?_spec : ∀ {calls}, Within R span calls → ∀ state,
    R.Accepts ((start.replay A calls).2.get? state) ∧
      R.colorsOf ((start.replay A calls).2.get? state) = unionAt R (added calls) state ∧
      ((start.replay A calls).2.get? state = none ↔ unionAt R (added calls) state = ∅)
  contains_iff : ∀ {calls}, Within R span calls → ∀ state,
    (start.replay A calls).2.contains state = true ↔ (unionAt R (added calls) state).Nonempty
  sizeHint_eq : ∀ {calls}, Within R span calls → (start.replay A calls).2.sizeHint =
    ((List.range n).filter (start.replay A calls).2.contains).length
  /-- In which order values are added makes no difference to what is there and to later replies. -/
  get?_reorder : ∀ {before after : List (Call C)} {adds adds' : List (Nat × C)}, adds.Perm adds' →
    Within R span (before ++ Call.addAll adds ++ after) → ∀ state,
      (start.replay A (before ++ Call.addAll adds ++ after)).2.get? state =
        (start.replay A (before ++ Call.addAll adds' ++ after)).2.get? state
  replies_reorder : ∀ {before after : List (Call C)} {adds adds' : List (Nat × C)}, adds.Perm adds' →
    Within R span (before ++ Call.addAll adds ++ after) →
      (start.replay A (before ++ Call.addAll adds ++ after)).1.drop (before.length + adds.length) =
        (start.replay A (before ++ Call.addAll adds' ++ after)).1.drop (before.length + adds.length)
  /-- A value for a state out of range is refused, whatever came before, and nothing changes. -/
  refused : ∀ calls {state} (value : C), start.range.contains state = false →
    (start.replay A calls).2.call A (.add state value) =
      (.failed (.error (.outOfRange state start.range)), (start.replay A calls).2)

/-- Two growing maps give the same replies to the calls and are the same to look at afterwards. -/
structure Interchangeable (A : Algebra C) (one other : Accumulator C) (calls : List (Call C)) :
    Prop where
  replies_eq : (one.replay A calls).1 = (other.replay A calls).1
  get?_eq : ∀ state, (one.replay A calls).2.get? state = (other.replay A calls).2.get? state
  contains_eq : ∀ state, (one.replay A calls).2.contains state = (other.replay A calls).2.contains state
  sizeHint_eq : (one.replay A calls).2.sizeHint = (other.replay A calls).2.sizeHint
  get?_freeze_eq : ∀ state, (one.replay A calls).2.freeze.get? A state =
    (other.replay A calls).2.freeze.get? A state

theorem length_replay (acc : Accumulator C) (calls : List (Call C)) :
    (acc.replay A calls).1.length = calls.length := by
  induction calls generalizing acc with
  | nil => rfl
  | cons c calls ih => simp only [replay, List.length_cons, ih]

theorem range_call (acc : Accumulator C) (c : Call C) : (acc.call A c).2.range = acc.range := by
  cases c with
  | take => exact range_clear acc
  | add state value =>
    rw [call]
    cases hadd : acc.add A state value with
    | error cause => rfl
    | ok out =>
      obtain ⟨_, next⟩ := out
      obtain hsame | ⟨_, grown, hset⟩ := add_cases hadd
      · exact congrArg range hsame
      · exact (congrArg range hset).trans (range_set acc state grown)

theorem range_replay (acc : Accumulator C) (calls : List (Call C)) :
    (acc.replay A calls).2.range = acc.range := by
  induction calls generalizing acc with
  | nil => rfl
  | cons c calls ih => exact (ih _).trans (range_call acc c)

theorem foldl_after_addAll (base adds : List (Nat × C)) :
    (Call.addAll adds).foldl Call.after base = base ++ adds := by
  induction adds generalizing base with
  | nil => simp [Call.addAll]
  | cons entry adds ih =>
    have hcons : Call.addAll (entry :: adds) = .add entry.1 entry.2 :: Call.addAll adds := rfl
    rw [hcons, List.foldl_cons, ih, Call.after, List.append_assoc]
    rfl

theorem unionAt_foldl_after (calls : List (Call C)) {adds adds' : List (Nat × C)}
    (hunion : ∀ state, unionAt R adds state = unionAt R adds' state) (state : Nat) :
    unionAt R (calls.foldl Call.after adds) state = unionAt R (calls.foldl Call.after adds') state := by
  induction calls generalizing adds adds' with
  | nil => exact hunion state
  | cons c calls ih => exact ih (c.unionAt_after hunion)

theorem unionAt_perm {base adds adds' : List (Nat × C)} (h : adds.Perm adds') (state : Nat) :
    unionAt R (base ++ adds) state = unionAt R (base ++ adds') state := by
  ext c
  simp only [mem_unionAt, List.mem_append, h.mem_iff]

variable {span : Span} {start : Accumulator C}

theorem Within.perm {before after : List (Call C)} {adds adds' : List (Nat × C)} (h : adds.Perm adds')
    (hcalls : Within R span (before ++ Call.addAll adds ++ after)) :
    Within R span (before ++ Call.addAll adds' ++ after) := by
  intro state value hmem
  have hperm : (before ++ Call.addAll adds ++ after).Perm (before ++ Call.addAll adds' ++ after) :=
    ((h.map _).append_left before).append_right after
  exact hcalls state value (hperm.mem_iff.2 hmem)

theorem added_append_addAll (before after : List (Call C)) (adds : List (Nat × C)) :
    added (before ++ Call.addAll adds ++ after) = after.foldl Call.after (added before ++ adds) := by
  rw [added, List.foldl_append, List.foldl_append, foldl_after_addAll, ← added]

/-- A map that holds nothing and takes values at the states of the span accumulates unions there. -/
theorem Holds.accumulates (hR : R.Faithful) (h : start.Holds R n [])
    (hspan : ∀ state, span.contains state = true → start.range.contains state = true) :
    start.Accumulates R n span := by
  have hrun {calls : List (Call C)} (hcalls : Within R span calls) :
      Answered R [] calls (start.replay A calls).1 ∧ (start.replay A calls).2.Holds R n (added calls) := by
    obtain ⟨hreplies, hlast, _⟩ := h.replay_spec calls fun state value hmem =>
      ⟨hspan state (hcalls state value hmem).1, (hcalls state value hmem).2⟩
    exact ⟨hreplies, hlast⟩
  -- The replies that come after the additions, as those of the map that is there by then.
  have hlater {before after : List (Call C)} {adds : List (Nat × C)}
      (hcalls : Within R span (before ++ Call.addAll adds ++ after)) :
      Answered R (added before ++ adds) after
        ((start.replay A (before ++ Call.addAll adds ++ after)).1.drop (before.length + adds.length)) := by
    have hfirst : Within R span (before ++ Call.addAll adds) := fun state value hmem =>
      hcalls state value (List.mem_append_left after hmem)
    have hlength : (start.replay A (before ++ Call.addAll adds)).1.length = before.length + adds.length := by
      rw [length_replay, List.length_append, Call.addAll, List.length_map]
    have hholds := (hrun hfirst).2
    have hadded := added_append_addAll before [] adds
    rw [List.append_nil, List.foldl_nil] at hadded
    rw [hadded] at hholds
    rw [replay_append, List.drop_left' hlength]
    refine (hholds.replay_spec after fun state value hmem => ?_).1
    obtain ⟨hin, hvalue⟩ := hcalls state value (List.mem_append_right _ hmem)
    rw [range_replay]
    exact ⟨hspan state hin, hvalue⟩
  refine ⟨fun hcalls => (hrun hcalls).1, ?_, fun hcalls => (hrun hcalls).2.contains_iff,
    fun hcalls => (hrun hcalls).2.sizeHint_eq, ?_, ?_, ?_⟩
  · intro calls hcalls state
    have hlast := (hrun hcalls).2
    refine ⟨hlast.fits.accepts state, hlast.colorsAt_eq state, ?_⟩
    rw [← Finset.not_nonempty_iff_eq_empty, ← hlast.contains_iff, contains_eq]
    simp
  · intro before after adds adds' hperm hcalls state
    refine (hrun hcalls).2.get?_eq hR (hrun (hcalls.perm hperm)).2 ?_
    rw [added_append_addAll, added_append_addAll]
    exact unionAt_foldl_after after (unionAt_perm hperm) state
  · intro before after adds adds' hperm hcalls
    refine (hlater hcalls).unique hR ?_ (unionAt_perm hperm)
    rw [hperm.length_eq]
    exact hlater (hcalls.perm hperm)
  · intro calls state value hout
    rw [← range_replay (A := A) start calls] at hout ⊢
    rw [call, add, if_neg (by rw [hout]; exact Bool.false_ne_true)]
    rfl

/-- Two maps that hold nothing and take values at the states of the span cannot be told apart there. -/
theorem Holds.interchangeable (hR : R.Faithful) {other : Accumulator C} (h : start.Holds R n [])
    (h' : other.Holds R n [])
    (hspan : ∀ state, span.contains state = true → start.range.contains state = true)
    (hspan' : ∀ state, span.contains state = true → other.range.contains state = true)
    {calls : List (Call C)} (hcalls : Within R span calls) : Interchangeable A start other calls := by
  obtain ⟨hreplies, hlast, _⟩ := h.replay_spec calls fun state value hmem =>
    ⟨hspan state (hcalls state value hmem).1, (hcalls state value hmem).2⟩
  obtain ⟨hreplies', hlast', _⟩ := h'.replay_spec calls fun state value hmem =>
    ⟨hspan' state (hcalls state value hmem).1, (hcalls state value hmem).2⟩
  have hget (state : Nat) : (start.replay A calls).2.get? state = (other.replay A calls).2.get? state :=
    hlast.get?_eq hR hlast' rfl
  have hcontains (state : Nat) :
      (start.replay A calls).2.contains state = (other.replay A calls).2.contains state := by
    rw [contains_eq, contains_eq, hget]
  refine ⟨hreplies.unique hR hreplies' fun _ => rfl, hget, hcontains, ?_, ?_⟩
  · rw [hlast.sizeHint_eq, hlast'.sizeHint_eq, funext hcontains]
  · intro state
    rw [get?_freeze, get?_freeze, hget]

theorem newSparse_holds : (newSparse n : Accumulator C).Holds R n [] :=
  ⟨newSparse_fits, counted_of_empty (by simp [newSparse, get?]) rfl, fun state => colorsAt_newSparse state⟩

theorem newDense_holds (hspan : span.start < span.stop → span.stop ≤ n)
    (h : newDense A span n = .ok start) :
    start.Holds R n [] ∧ ∀ state, start.range.contains state = span.contains state := by
  obtain ⟨_, hreserve, hmade⟩ := bind_eq_ok_iff.1 h
  obtain ⟨acc, hacc, hfits, hrange, hcolors⟩ := newDense_spec (R := R) hreserve hspan
  rw [h] at hacc
  cases hacc
  refine ⟨⟨hfits, counted_of_empty ?_ ?_, hcolors⟩, hrange⟩
  · intro state
    cases hget : start.get? state with
    | none => rfl
    | some a =>
      have hempty := hcolors state
      rw [colorsAt_of_get? hget] at hempty
      exact absurd hempty (hfits.nonempty hget).ne_empty
  · cases hmade
    rfl

/-- The dense layout over a span and the sparse one accumulate unions in every history, and cannot be
told apart by calls at the states of the span. -/
theorem layouts_interchangeable {domain : Domain} {span : Span} {n : Nat}
    {dense : Accumulator domain.Value} (hspan : span.start < span.stop → span.stop ≤ n)
    (hdense : newDense domain.algebra span n = .ok dense) :
    dense.Accumulates domain.reading n span ∧ (newSparse n).Accumulates domain.reading n span ∧
      ∀ calls, Within domain.reading span calls →
        Interchangeable domain.algebra dense (newSparse n) calls := by
  obtain ⟨hholds, hrange⟩ := newDense_holds (R := domain.reading) hspan hdense
  have hin (state : Nat) (hstate : span.contains state = true) :
      dense.range.contains state = true := (hrange state).trans hstate
  have hin' (state : Nat) (hstate : span.contains state = true) :
      (newSparse n : Accumulator domain.Value).range.contains state = true := by
    rw [Span.contains_iff] at hstate
    have := hspan (by omega)
    simp only [newSparse, range, Span.contains_iff]
    omega
  have hfaithful : domain.reading.Faithful := domain.faithful
  exact ⟨hholds.accumulates hfaithful hin, newSparse_holds.accumulates hfaithful hin',
    fun calls hcalls => hholds.interchangeable hfaithful newSparse_holds hin hin' hcalls⟩

/-- A history at the last states of a space of five: a value that grows, one that is empty, all taken
out, and a value again. -/
theorem layouts_interchangeable_tail :
    let calls : List (Call ColorSet) :=
      [.add 3 (.full 1), .add 4 (.empty 3), .add 3 (.full 3), .take, .add 4 (.full 1)]
    ∃ dense : Accumulator ColorSet, newDense (.explicit 3) ⟨3, 5⟩ 5 = .ok dense ∧
      Within (Reading.explicit 3) ⟨3, 5⟩ calls ∧
      dense.Accumulates (Reading.explicit 3) 5 ⟨3, 5⟩ ∧
      (newSparse 5 : Accumulator ColorSet).Accumulates (Reading.explicit 3) 5 ⟨3, 5⟩ ∧
      Interchangeable (Algebra.explicit 3) dense (newSparse 5) calls := by
  intro calls
  have hone : (ColorSet.full 1).InDomain 3 := ColorSet.inDomain_full_of_le rfl (by decide)
  have hwithin : Within (Reading.explicit 3) ⟨3, 5⟩ calls := by
    intro state value hmem
    obtain ⟨rfl, rfl⟩ | ⟨rfl, rfl⟩ | ⟨rfl, rfl⟩ | ⟨rfl, rfl⟩ :
        state = 3 ∧ value = .full 1 ∨ state = 4 ∧ value = .empty 3 ∨
          state = 3 ∧ value = .full 3 ∨ state = 4 ∧ value = .full 1 := by
      simpa [calls] using hmem
    · exact ⟨rfl, hone⟩
    · exact ⟨rfl, ColorSet.inDomain_empty 3⟩
    · exact ⟨rfl, ColorSet.inDomain_full 3⟩
    · exact ⟨rfl, hone⟩
  obtain ⟨hdense, hsparse, hall⟩ :=
    @layouts_interchangeable (.explicit 3) ⟨3, 5⟩ 5 _ (by decide) rfl
  exact ⟨_, rfl, hwithin, hdense, hsparse, hall calls hwithin⟩

end Histories

end ColoredCtl.Accumulator

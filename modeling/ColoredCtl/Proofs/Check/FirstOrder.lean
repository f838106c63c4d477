import ColoredCtl.Proofs.Check.Records
import Mathlib.Data.List.Sort

namespace ColoredCtl

open Color

variable {C : Type} {A : Algebra C}

/-- Entries for different states, put in order. -/
theorem inOrder_mergeSort {l : Packet C} (hl : (l.map (·.1)).Nodup) :
    InOrder (l.mergeSort fun a b => a.1 ≤ b.1) := by
  have hle : (l.mergeSort fun a b => a.1 ≤ b.1).Pairwise fun a b => decide (a.1 ≤ b.1) = true := by
    refine List.pairwise_mergeSort ?_ ?_ l
    · intro a b c hab hbc
      exact decide_eq_true (Nat.le_trans (of_decide_eq_true hab) (of_decide_eq_true hbc))
    · intro a b
      simp [Nat.le_total]
  have hne : (l.mergeSort fun a b => a.1 ≤ b.1).Pairwise fun a b => a.1 ≠ b.1 :=
    List.pairwise_map.1 (((List.mergeSort_perm l _).map _).nodup_iff.2 hl)
  rw [InOrder, List.pairwise_map]
  apply (hle.and hne).imp
  rintro a b ⟨hab, hab'⟩
  exact Nat.lt_of_le_of_ne (of_decide_eq_true hab) hab'

namespace FirstOrder

variable {ctx : Context C} {R : Reading ctx.algebra} {S : Nat → Kripke} {P : Nat → Set Nat}
  {m : StateMap C} {legal : C}

/-- The value of a map at a state, for the worker of the state. -/
theorem ownValue?_spec (hm : ctx.Shows R P m) (s : Nat) :
    ∃ value, ownValue? ctx s m = .ok value ∧ R.Accepts value ∧ (∀ a, value = some a → ctx.Owns s) ∧
      ∀ c, c ∈ R.colorsOf value ↔ ctx.Owns s ∧ c ∈ R.palette ∧ s ∈ P c := by
  obtain ⟨value, hvalue, haccepts, hcolors⟩ := hm.get?_spec s
  by_cases hlocal : ctx.partition.owner s = ctx.id
  · have hisLocal : ctx.partition.isLocal s = true := beq_iff_eq.2 hlocal
    cases value with
    | none =>
      refine ⟨none, ?_, haccepts, by simp, hcolors⟩
      rw [ownValue?, if_pos hisLocal, hvalue]
      rfl
    | some a =>
      obtain ⟨found, hfound, hfoundAccepts, hfoundColors, _⟩ := R.nonempty?_spec (haccepts a rfl)
      refine ⟨found, ?_, hfoundAccepts, fun _ _ => hm.within (hm.fits.contains_iff.2 ⟨a, hvalue⟩), ?_⟩
      · rw [ownValue?, if_pos hisLocal, hvalue]
        exact hfound
      · intro c
        rw [hfoundColors]
        exact hcolors c
  · have hisLocal : ¬ctx.partition.isLocal s = true := fun heq => hlocal (beq_iff_eq.1 heq)
    refine ⟨none, by rw [ownValue?, if_neg hisLocal]; rfl, R.accepts_none, by simp, ?_⟩
    intro c
    simp [Context.Owns, hlocal]

/-- A substitution takes from the colors of one state those for which it is legal and the formula does
not hold there. -/
theorem restrictAt_spec (hlegal : R.InDomain legal) (hm : ctx.Shows R P m) {x : Nat × C}
    (howns : ctx.Owns x.1) (hx : R.InDomain x.2) :
    ∃ found, (do
        let violated ←
          match ← m.get? ctx.algebra x.1 with
          | some holds => ctx.algebra.diff legal holds
          | none => pure legal
        let left ← ctx.algebra.diff x.2 violated
        return (← ctx.algebra.nonempty? left).map (x.1, ·) : Except Misuse (Option (Nat × C))) =
        .ok found ∧ Finds R x.1 (fun c => c ∈ R.colors x.2 ∧ (c ∈ R.colors legal → x.1 ∈ P c)) found := by
  obtain ⟨holds, hholds, haccepts, hholdsColors⟩ := hm.get?_spec x.1
  obtain ⟨violated, hviolated, hviolatedIn, hviolatedColors⟩ := R.diffOpt_spec hlegal haccepts
  obtain ⟨left, hleft, hleftIn, hleftColors⟩ := R.diff_spec hx hviolatedIn
  obtain ⟨found, hfound, hfoundAccepts, hfoundColors, _⟩ := R.nonempty?_spec hleftIn
  refine ⟨found.map (x.1, ·), ?_, .of_value hfoundAccepts fun c => ?_⟩
  · cases holds with
    | none =>
      cases hviolated
      simp only [hholds, hleft, hfound, ok_bind, pure_bind]
      rfl
    | some a =>
      have hdiff : ctx.algebra.diff legal a = .ok violated := hviolated
      simp only [hholds, hdiff, hleft, hfound, ok_bind]
      rfl
  · rw [hfoundColors, hleftColors, Finset.mem_sdiff, hviolatedColors, Finset.mem_sdiff, hholdsColors,
      not_and, not_not]
    refine and_congr_right fun _ => forall_congr' fun hc => ?_
    have hpalette := R.colors_subset hlegal hc
    tauto

/-- A substitution takes from the colors of each state those for which it is legal and the formula does
not hold. -/
theorem restrict_spec (hlegal : R.InDomain legal) (hm : ctx.Shows R P m) {colors : Packet C}
    {Φ : Nat → Nat → Prop} (hcolors : Listed R ctx.Owns Φ colors) :
    ∃ rest, restrict ctx legal m colors = .ok rest ∧
      Listed R ctx.Owns (fun s c => Φ s c ∧ (c ∈ R.colors legal → s ∈ P c)) rest := by
  have horder : colors.Pairwise fun x y => x.1 < y.1 := List.pairwise_map.1 hcolors.inOrder
  obtain ⟨rest, hrest, hlisted⟩ := select_spec (k := fun x : Nat × C => x.1) horder fun x hx =>
    restrictAt_spec hlegal hm (hcolors.within hx) (hcolors.inDomain hx)
  refine ⟨rest, hrest, hlisted.congr ?_ ?_⟩
  · rintro _ ⟨x, hx, rfl⟩
    exact hcolors.within hx
  · intro s c
    rw [← hcolors.mem_iff]
    constructor
    · rintro ⟨⟨_, a⟩, hmem, rfl, hc, hP⟩
      exact ⟨⟨a, hmem, hc⟩, hP⟩
    · rintro ⟨⟨a, hmem, hc⟩, hP⟩
      exact ⟨(s, a), hmem, rfl, hc, hP⟩

/-- A substitution adds the colors for which it is legal and the formula holds. -/
theorem collect_spec (h : ctx.Ready R S) (hlegal : R.InDomain legal) (hm : ctx.Shows R P m)
    {acc : Accumulator C} (hacc : acc.Fits R ctx.stateCount)
    (hrange : ∀ s, ctx.Owns s → acc.range.contains s = true) :
    ∃ next, collect ctx legal m acc = .ok next ∧ next.Fits R ctx.stateCount ∧
      next.range = acc.range ∧
      ∀ s c, c ∈ next.colorsAt R s ↔
        c ∈ acc.colorsAt R s ∨ (ctx.Owns s ∧ c ∈ R.colors legal ∧ s ∈ P c) := by
  obtain ⟨entries, hentries, hlisted⟩ := hm.entries_spec h.stateCount_le
  have hrun : ∃ next, entries.foldlM (fun acc (entry : Nat × C) => (do
          let colors ← ctx.algebra.inter legal entry.2
          return (← Attempt.ofMap (acc.add ctx.algebra entry.1 colors)).2 : Attempt (Accumulator C)))
        acc = .ok next ∧ next.Fits R ctx.stateCount ∧ next.range = acc.range ∧
      ∀ s c, c ∈ next.colorsAt R s ↔ c ∈ acc.colorsAt R s ∨
        (c ∈ R.colors legal ∧ ∃ a, (s, a) ∈ entries ∧ c ∈ R.colors a) := by
    refine foldlM_run (fun (done : Packet C) (next : Accumulator C) =>
      next.Fits R ctx.stateCount ∧ next.range = acc.range ∧
      ∀ s c, c ∈ next.colorsAt R s ↔ c ∈ acc.colorsAt R s ∨
        (c ∈ R.colors legal ∧ ∃ a, (s, a) ∈ done ∧ c ∈ R.colors a)) ⟨hacc, rfl, by simp⟩ ?_
    rintro done ⟨t, a⟩ rest next hsplit ⟨hfits, hnextRange, hcolors⟩
    have hmem : (t, a) ∈ entries := by simp [hsplit]
    obtain ⟨both, hboth, hbothIn, hbothColors⟩ := R.inter_spec hlegal (hlisted.inDomain hmem)
    have hin : next.range.contains t = true := by
      rw [hnextRange]
      exact hrange t (hlisted.within hmem)
    obtain ⟨_, grown, hadd, hgrownFits, hgrownRange, hgrownColors, _⟩ := hfits.add_spec hin hbothIn
    refine ⟨grown, ?_, hgrownFits, hgrownRange.trans hnextRange, ?_⟩
    · simp only [hboth, hadd, liftM_ok, ofMap_ok, ok_bind]
      rfl
    · intro s c
      rw [hgrownColors]
      by_cases heq : s = t
      · subst heq
        simp [hcolors, hbothColors, or_and_right, exists_or, and_or_left, or_assoc]
      · simp [hcolors, heq]
  obtain ⟨next, hnext, hfits, hnextRange, hcolors⟩ := hrun
  refine ⟨next, ?_, hfits, hnextRange, ?_⟩
  · rw [collect, StateMap.foldEntries_eq (fun _ => rfl) hentries]
    exact hnext
  · intro s c
    rw [hcolors, hlisted.mem_iff]
    refine or_congr_right ⟨fun hc => ⟨hc.2.1, hc.1, hc.2.2.2⟩, fun hc => ?_⟩
    exact ⟨hc.2.1, hc.1, R.colors_subset hlegal hc.2.1, hc.2.2⟩

end FirstOrder

namespace Team

variable {R : Reading A} {M : Model C} {S : Nat → Kripke} {K : Nat} (T : Team R M S K)
  {eval : Fin K → Nat → Recorder C (StateMap C)}

/-- Together the workers find the states where a formula holds with a name standing for the state. -/
theorem bind_spec {P : Nat → Nat → Set Nat}
    (heval : ∀ v < M.stateCount, T.Records (fun i => eval i v) (T.Shows (P v))) :
    T.Records (fun i => FirstOrder.recordBind (T.ctx i) (eval i)) (T.Shows fun c => {s | s ∈ P s c}) := by
  have hfind : ∀ s ∈ List.range M.stateCount, T.Records (fun i => (do
        let m ← eval i s
        let value ← (liftM (FirstOrder.ownValue? (T.ctx i) s m) : Recorder C (Option C))
        return value.map (s, ·) : Recorder C (Option (Nat × C)))) fun found => ∀ i,
          (∀ entry, found i = some entry → (T.ctx i).Owns s) ∧
            Finds R s (fun c => (T.ctx i).Owns s ∧ c ∈ R.palette ∧ s ∈ P s c) (found i) := by
    intro s hs
    refine (heval s (List.mem_range.1 hs)).bind fun m hm => ?_
    refine .bind (.lift (.compute fun i => FirstOrder.ownValue?_spec (hm i) s)) ?_
    intro value hvalue
    refine .done fun i => ⟨?_, .of_value (hvalue i).1 (hvalue i).2.2⟩
    intro entry hentry
    obtain ⟨a, ha, _⟩ := Option.map_eq_some_iff.1 hentry
    exact (hvalue i).2.1 a ha
  apply (Records.filterMapM List.nodup_range hfind).bind
  rintro entries ⟨found, hfound, hentries⟩
  refine .done fun i => ?_
  obtain ⟨listed, hlisted, hspec⟩ := select_spec (ε := Misuse) (k := fun s => s)
    (f := fun s => .ok (found s i)) List.pairwise_lt_range fun s hs => ⟨_, rfl, (hfound s hs i).2⟩
  have hsame : entries i = listed := by
    rw [filterMapM_eq_ok fun s _ => ⟨_, rfl⟩] at hlisted
    exact (hentries i).trans (Except.ok.inj hlisted)
  have howns : ∀ {s a}, (s, a) ∈ listed → (T.ctx i).Owns s := by
    intro s a hmem
    rw [← hsame, hentries i] at hmem
    obtain ⟨s', hs', heq⟩ := List.mem_filterMap.1 hmem
    obtain rfl := (hfound s' hs' i).2.state_eq heq
    exact (hfound s hs' i).1 _ heq
  have hgathered : Gathered R (T.ctx i).Owns
      (fun s c => (T.ctx i).Owns s ∧ c ∈ R.palette ∧ s ∈ P s c) listed := by
    refine ⟨howns, hspec.inDomain, ?_⟩
    intro s c
    rw [hspec.mem_iff]
    constructor
    · rintro ⟨_, _, rfl, hc⟩
      exact hc
    · intro hc
      exact ⟨s, List.mem_range.2 hc.1.1, rfl, hc⟩
  rw [hsame]
  exact hgathered.ofEntries hspec.nodup fun s hs => hs.1

/-- Together the workers find whether a formula holds at a named state. -/
theorem jump_spec {P : Nat → Set Nat} {m : Fin K → StateMap C} (hm : T.Shows P m) {v : Nat}
    (hv : v < M.stateCount) :
    T.Ends (fun i => FirstOrder.jump (T.ctx i) v (m i)) (T.Shows fun c => {_s | v ∈ P c}) := by
  refine .bind (.compute fun i => FirstOrder.ownValue?_spec (hm i) v) ?_
  intro value hvalue
  have hpacket : ∀ {i s a}, (s, a) ∈ ((value i).map (v, ·)).toList → s = v ∧ value i = some a := by
    intro i s a hmem
    obtain ⟨b, hb, heq⟩ := Option.map_eq_some_iff.1 (Option.mem_toList.1 hmem)
    cases heq
    exact ⟨rfl, hb⟩
  refine .bind (T.broadcast_spec (fun i => ((value i).map (v, ·)).toList) fun i => ?_) ?_
  · refine ⟨?_, ?_, T.owner v, ?_⟩
    · cases value i <;> simp [InOrder]
    · intro s a hmem
      obtain ⟨rfl, ha⟩ := hpacket hmem
      exact ⟨hv, (hvalue i).1 a ha⟩
    · intro s a hmem
      rw [(hpacket hmem).1]
  intro all hall
  refine .of_done fun i => ?_
  obtain ⟨j, hj⟩ := T.exists_owns hv
  -- Only the worker of the state has a value to send.
  have hmem : ∀ {a}, (v, a) ∈ all i ↔ value j = some a := by
    intro a
    rw [(hall i).mem_iff, List.mem_flatMap]
    constructor
    · rintro ⟨k, _, hk⟩
      have hvalueK := (hpacket hk).2
      have howner : (k : Nat) = j := ((hvalue k).2.1 a hvalueK).2.symm.trans hj.2
      rwa [Fin.ext howner] at hvalueK
    · intro ha
      exact ⟨j, List.mem_finRange j, by simp [ha]⟩
  cases hlookup : (all i).lookup v with
  | none =>
    refine ⟨.empty M.stateCount, rfl, rfl, by simp [StateMap.contains], ?_⟩
    intro s c
    have hnone : value j = none := by
      cases hj' : value j with
      | none => rfl
      | some a =>
        have hne := List.lookup_eq_none_iff.1 hlookup _ (hmem.2 hj')
        simp at hne
    have hcolors := (hvalue j).2.2 c
    rw [hnone] at hcolors
    simp only [StateMap.colorsAt_empty, Finset.notMem_empty, false_iff]
    rintro ⟨_, hc, hP⟩
    exact absurd (hcolors.2 ⟨hj, hc, hP⟩) (by simp)
  | some a =>
    have ha : value j = some a := by
      obtain ⟨l, l', heq, _⟩ := List.lookup_eq_some_iff.1 hlookup
      exact hmem.1 (by rw [heq]; simp)
    have hcolors : ∀ c, c ∈ R.colors a ↔ c ∈ R.palette ∧ v ∈ P c := by
      intro c
      rw [← R.colorsOf_some, ← ha, (hvalue j).2.2 c]
      simp [hj]
    refine ⟨.constant (T.localSet i) a, rfl, ⟨T.localSet_count i, (hvalue j).1 a ha⟩,
      fun hs => (T.mem_localSet i _).1 hs, ?_⟩
    intro s c
    rw [StateMap.colorsAt_constant]
    by_cases hs : (T.localSet i).contains s = true
    · have howns : (T.ctx i).Owns s := (T.mem_localSet i s).1 hs
      simp [hs, hcolors, howns]
    · have howns : ¬(T.ctx i).Owns s := fun howns => hs ((T.mem_localSet i s).2 howns)
      simp [hs, howns]

/-- All workers go through the same substitutions: the states of the bound, in order. -/
theorem substitutions_spec {B : Nat → Set Nat} {bound : Fin K → StateMap C} (hbound : T.Shows B bound) :
    T.Ends (fun i => FirstOrder.substitutions (T.ctx i) (bound i)) fun values =>
      ∃ common, (∀ i, values i = common) ∧ Listed R (· < M.stateCount)
        (fun v c => v < M.stateCount ∧ c ∈ R.palette ∧ v ∈ B c) common := by
  refine .bind (.compute fun i => (hbound i).entries_spec (T.ready i).stateCount_le) ?_
  intro entries hentries
  refine .bind (T.broadcast_spec entries fun i =>
    ⟨(hentries i).inOrder, fun hmem => ⟨((hentries i).within hmem).1, (hentries i).inDomain hmem⟩,
      i, fun hmem => ((hentries i).within hmem).2⟩) ?_
  intro all hall
  let flat := (List.finRange K).flatMap entries
  have hnodup : (flat.map (·.1)).Nodup := by
    rw [List.map_flatMap, List.nodup_flatMap]
    refine ⟨fun i _ => (hentries i).nodup, (List.nodup_finRange K).imp ?_⟩
    intro i j hne s hs hs'
    obtain ⟨⟨_, a⟩, hmem, rfl⟩ := List.mem_map.1 hs
    obtain ⟨⟨_, b⟩, hmem', heq⟩ := List.mem_map.1 hs'
    cases heq
    exact hne (Fin.ext (((hentries i).within hmem).2.symm.trans ((hentries j).within hmem').2))
  refine .done ⟨flat.mergeSort fun a b => a.1 ≤ b.1, fun i => ?_, ⟨?_, ?_, ?_⟩, inOrder_mergeSort hnodup⟩
  · have hnodup' : ((all i).map (·.1)).Nodup := ((hall i).map _).nodup_iff.2 hnodup
    apply (inOrder_mergeSort hnodup').eq_of_perm (inOrder_mergeSort hnodup)
    exact (List.mergeSort_perm _ _).trans ((hall i).trans (List.mergeSort_perm _ _).symm)
  · intro v a hmem
    obtain ⟨i, _, hentry⟩ := List.mem_flatMap.1 (List.mem_mergeSort.1 hmem)
    exact ((hentries i).within hentry).1
  · intro v a hmem
    obtain ⟨i, _, hentry⟩ := List.mem_flatMap.1 (List.mem_mergeSort.1 hmem)
    exact (hentries i).inDomain hentry
  · intro v c
    constructor
    · rintro ⟨a, hmem, hc⟩
      obtain ⟨i, _, hentry⟩ := List.mem_flatMap.1 (List.mem_mergeSort.1 hmem)
      obtain ⟨howns, hholds⟩ := (hentries i).mem_iff.1 ⟨a, hentry, hc⟩
      exact ⟨howns.1, hholds⟩
    · rintro ⟨hv, hholds⟩
      obtain ⟨i, howns⟩ := T.exists_owns hv
      obtain ⟨a, hentry, hc⟩ := (hentries i).mem_iff.2 ⟨howns, hholds⟩
      exact ⟨a, List.mem_mergeSort.2 (List.mem_flatMap.2 ⟨i, List.mem_finRange i, hentry⟩), hc⟩

/-- All colors at the states of a worker, as entries. -/
theorem fullEntries_spec (i : Fin K) :
    Listed R (T.ctx i).Owns (fun s c => (T.ctx i).Owns s ∧ c ∈ R.palette)
      ((T.ctx i).partition.localStates.map (·, A.full.get)) := by
  have hmem : ∀ {s a}, (s, a) ∈ (T.ctx i).partition.localStates.map (·, A.full.get) ↔
      (T.ctx i).Owns s ∧ a = A.full.get := by
    intro s a
    rw [List.mem_map]
    constructor
    · rintro ⟨t, ht, heq⟩
      cases heq
      exact ⟨(T.proper i).mem_localStates.1 ht, rfl⟩
    · rintro ⟨hs, rfl⟩
      exact ⟨s, (T.proper i).mem_localStates.2 hs, rfl⟩
  refine ⟨⟨fun h => (hmem.1 h).1, ?_, ?_⟩, ?_⟩
  · intro s a h
    rw [(hmem.1 h).2]
    exact R.inDomain_full
  · intro s c
    simp only [hmem]
    constructor
    · rintro ⟨_, ⟨hs, rfl⟩, hc⟩
      exact ⟨hs, R.colors_full ▸ hc⟩
    · rintro ⟨hs, hc⟩
      exact ⟨_, ⟨hs, rfl⟩, R.colors_full.symm ▸ hc⟩
  · rw [InOrder, List.map_map]
    exact (List.map_id _).symm ▸ (T.proper i).pairwise_localStates

/-- Together the workers find the states where a formula holds for all states of a bound. -/
theorem forAll_spec {B : Nat → Set Nat} {P : Nat → Nat → Set Nat} {bound : Fin K → StateMap C}
    (hbound : T.Shows B bound)
    (heval : ∀ v < M.stateCount, T.Records (fun i => eval i v) (T.Shows (P v))) :
    T.Records (fun i => FirstOrder.recordForAll (T.ctx i) (bound i) (eval i))
      (Walks (T.Shows fun c => {s | ∀ v < M.stateCount, v ∈ B c → s ∈ P v c})) := by
  refine .bind (.observe (T.substitutions_spec hbound)) ?_
  rintro values ⟨common, hcommon, hlisted⟩
  obtain rfl : values = fun _ => common := funext hcommon
  -- A color is left at a state if no substitution so far has taken it away.
  refine .bind (.foldlM (fun (done : Packet C) colors => ∀ i, Listed R (T.ctx i).Owns
    (fun s c => ((T.ctx i).Owns s ∧ c ∈ R.palette) ∧
      ∀ v legal, (v, legal) ∈ done → c ∈ R.colors legal → s ∈ P v c) (colors i)) ?_ ?_) ?_
  · intro i
    exact (T.fullEntries_spec i).congr (fun _ hs => hs) (by simp)
  · rintro done ⟨v, legal⟩ rest colors hsplit hcolors
    have hmem : (v, legal) ∈ common := by simp [hsplit]
    refine (heval v (hlisted.within hmem)).bind fun m hm => ?_
    refine (Records.lift (.compute fun i =>
      FirstOrder.restrict_spec (hlisted.inDomain hmem) (hm i) (hcolors i))).imp ?_
    intro left hleft i
    refine (hleft i).congr (fun _ hs => hs) fun s c => ?_
    rw [and_assoc]
    refine and_congr_right fun _ => ?_
    simp only [List.mem_append, List.mem_singleton, Prod.mk.injEq]
    constructor
    · rintro ⟨hbefore, hlast⟩ w a (hw | ⟨rfl, rfl⟩)
      · exact hbefore w a hw
      · exact hlast
    · intro hall
      exact ⟨fun w a hw => hall w a (.inl hw), hall v legal (.inr ⟨rfl, rfl⟩)⟩
  · intro colors hcolors
    refine .done ⟨⟨common, fun _ => rfl⟩, fun i => ?_⟩
    have hshows := (hcolors i).toGathered.ofEntries (n := M.stateCount) (hcolors i).nodup
      fun s hs => hs.1
    refine hshows.congr (fun _ hs => hs) fun s c => ?_
    rw [and_assoc]
    refine and_congr_right fun _ => and_congr_right fun hc => ?_
    constructor
    · intro hleft v hv hB
      obtain ⟨legal, hmem, hlegal⟩ := hlisted.mem_iff.2 ⟨hv, hc, hB⟩
      exact hleft v legal hmem hlegal
    · intro hall v legal hmem hlegal
      obtain ⟨hv, _, hB⟩ := hlisted.mem_iff.1 ⟨legal, hmem, hlegal⟩
      exact hall v hv hB

/-- Together the workers find the states where a formula holds for some state of a bound. -/
theorem forSome_spec {B : Nat → Set Nat} {P : Nat → Nat → Set Nat} {bound : Fin K → StateMap C}
    (hbound : T.Shows B bound)
    (heval : ∀ v < M.stateCount, T.Records (fun i => eval i v) (T.Shows (P v))) :
    T.Records (fun i => FirstOrder.recordForSome (T.ctx i) (bound i) (eval i))
      (Walks (T.Shows fun c => {s | ∃ v < M.stateCount, v ∈ B c ∧ s ∈ P v c})) := by
  refine .bind (.observe (T.substitutions_spec hbound)) ?_
  rintro values ⟨common, hcommon, hlisted⟩
  obtain rfl : values = fun _ => common := funext hcommon
  refine .bind (.lift (.compute fun i => (T.ready i).newResult_spec)) ?_
  intro start hstart
  refine .bind (.foldlM (fun (done : Packet C) (acc : Fin K → Accumulator C) => ∀ i,
    (acc i).Fits R M.stateCount ∧ (acc i).range = (start i).range ∧
      ∀ s c, c ∈ (acc i).colorsAt R s ↔
        ∃ v legal, (v, legal) ∈ done ∧ (T.ctx i).Owns s ∧ c ∈ R.colors legal ∧ s ∈ P v c) ?_ ?_) ?_
  · intro i
    refine ⟨(hstart i).1, rfl, ?_⟩
    intro s c
    simp [(hstart i).2.2]
  · rintro done ⟨v, legal⟩ rest acc hsplit hacc
    have hmem : (v, legal) ∈ common := by simp [hsplit]
    refine (heval v (hlisted.within hmem)).bind fun m hm => ?_
    have hrange : ∀ i s, (T.ctx i).Owns s → (acc i).range.contains s = true := by
      intro i s hs
      rw [(hacc i).2.1]
      exact (hstart i).2.1 s hs
    refine (Records.lift (.attempt fun i => FirstOrder.collect_spec (T.ready i) (hlisted.inDomain hmem)
      (hm i) (hacc i).1 (hrange i))).imp ?_
    intro next hnext i
    refine ⟨(hnext i).1, (hnext i).2.1.trans (hacc i).2.1, ?_⟩
    intro s c
    rw [(hnext i).2.2, (hacc i).2.2]
    simp only [List.mem_append, List.mem_singleton, Prod.mk.injEq]
    constructor
    · rintro (⟨w, a, hw, hrest⟩ | hrest)
      · exact ⟨w, a, .inl hw, hrest⟩
      · exact ⟨v, legal, .inr ⟨rfl, rfl⟩, hrest⟩
    · rintro ⟨w, a, hw | ⟨rfl, rfl⟩, hrest⟩
      · exact .inl ⟨w, a, hw, hrest⟩
      · exact .inr hrest
  · intro acc hacc
    refine .done ⟨⟨common, fun _ => rfl⟩, fun i => (hacc i).1.freeze_shows ?_ fun s c hsc => hsc.1⟩
    intro s c
    rw [(hacc i).2.2]
    constructor
    · rintro ⟨v, legal, hmem, hs, hlegal, hP⟩
      obtain ⟨hv, hc, hB⟩ := hlisted.mem_iff.1 ⟨legal, hmem, hlegal⟩
      exact ⟨hs, hc, v, hv, hB, hP⟩
    · rintro ⟨hs, hc, v, hv, hB, hP⟩
      obtain ⟨legal, hmem, hlegal⟩ := hlisted.mem_iff.2 ⟨hv, hc, hB⟩
      exact ⟨v, legal, hmem, hs, hlegal, hP⟩

end Team

end ColoredCtl

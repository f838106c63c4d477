import ColoredCtl.Check.Next
import ColoredCtl.Proofs.Check.Team

namespace ColoredCtl

open Color

variable {C : Type} {A : Algebra C}

namespace Next

variable {ctx : Context C} {R : Reading ctx.algebra} {S : Nat → Kripke}

/-- A value contributes at the states with a step to its state. -/
theorem contributionsFrom_spec (h : ctx.Ready R S) (course : Course) (s : Nat) {value : C}
    (hvalue : R.InDomain value) :
    ∃ packet, contributionsFrom ctx course s value = .ok packet ∧
      Gathered R (· < ctx.stateCount)
        (fun t c => c ∈ R.colors value ∧ (S c).Leads course t s) packet := by
  obtain ⟨packet, hpacket, hgathered, _⟩ := gather_spec (R := R) (k := Transition.target)
    (l := course.predecessors ctx.model s)
    (Ψ := fun e c => c ∈ R.colors value ∧ c ∈ R.colors e.bound)
    (f := fun t => (do
      let colors ← ctx.algebra.inter value t.bound
      if ← ctx.algebra.maybeNonempty colors then return some (t.target, colors) else return none :
        Except Misuse (Option (Nat × C)))) (by
      intro e he
      obtain ⟨colors, hcolors, hin, hcolorsEq⟩ :=
        R.inter_spec hvalue (h.serves.inDomain_predecessors he).2
      obtain ⟨found, hfound, hfinds⟩ := Finds.of_nonempty hin e.target
      refine ⟨_, ?_, hfinds.congr fun c => ?_⟩
      · simp only [hcolors, Operations.maybeNonempty, hfound, ok_bind]
        cases found <;> rfl
      · rw [hcolorsEq, Finset.mem_inter])
  refine ⟨packet, hpacket, hgathered.congr ?_ ?_⟩
  · rintro _ ⟨e, he, rfl⟩
    rw [h.stateCount_eq]
    exact (h.serves.inDomain_predecessors he).1
  · intro t c
    rw [h.serves.leads_iff_predecessors]
    constructor
    · rintro ⟨e, he, rfl, hc, hbound⟩
      exact ⟨hc, e, he, rfl, hbound⟩
    · rintro ⟨hc, e, he, rfl, hbound⟩
      exact ⟨e, he, rfl, hc, hbound⟩

/-- What the value of a map at one state means for the states that lead to it. -/
theorem contributionsAt_spec (h : ctx.Ready R S) (course : Course) {phi : StateMap C}
    {P : Nat → Set Nat} (hphi : ctx.Shows R P phi) (s : Nat) :
    ∃ packet, (do
        match ← phi.get? ctx.algebra s with
        | none => return []
        | some value => contributionsFrom ctx course s value : Except Misuse (Packet C)) = .ok packet ∧
      Gathered R (· < ctx.stateCount) (fun t c => (ctx.Owns s ∧ c ∈ R.palette ∧ s ∈ P c) ∧
        (S c).Leads course t s) packet := by
  obtain ⟨value, hvalue, haccepts, hcolors⟩ := hphi.get?_spec s
  cases value with
  | none =>
    refine ⟨[], by rw [hvalue]; rfl, by simp, by simp, ?_⟩
    intro t c
    simp [← hcolors]
  | some a =>
    obtain ⟨packet, hpacket, hgathered⟩ := contributionsFrom_spec h course s (haccepts a rfl)
    refine ⟨packet, by rw [hvalue]; exact hpacket, hgathered.congr (fun t ht => ht) ?_⟩
    intro t c
    rw [← hcolors, R.colorsOf_some]

/-- A worker contributes at the states with a step into its part of a map. -/
theorem contributions_spec (h : ctx.Ready R S) (course : Course) {phi : StateMap C}
    {P : Nat → Set Nat} (hphi : ctx.Shows R P phi) :
    ∃ packet, contributions ctx course phi = .ok packet ∧
      Gathered R (· < ctx.stateCount) (fun t c => ∃ s, ctx.Owns s ∧ c ∈ R.palette ∧ s ∈ P c ∧
        (S c).Leads course t s) packet := by
  obtain ⟨states, hstates, _, _, hmem⟩ := hphi.states_spec h.stateCount_le
  obtain ⟨parts, hparts, hback, hforth⟩ := mapM_spec (l := states) fun s _ =>
    contributionsAt_spec h course hphi s
  refine ⟨parts.flatten, ?_, ?_, ?_, ?_⟩
  · rw [contributions, hstates, ok_bind]
    exact bind_eq_ok_iff.2 ⟨parts, hparts, rfl⟩
  · intro t a hta
    obtain ⟨part, hpart, hmem⟩ := List.mem_flatten.1 hta
    obtain ⟨s, _, hgathered⟩ := hback part hpart
    exact hgathered.within hmem
  · intro t a hta
    obtain ⟨part, hpart, hmem⟩ := List.mem_flatten.1 hta
    obtain ⟨s, _, hgathered⟩ := hback part hpart
    exact hgathered.inDomain hmem
  · intro t c
    constructor
    · rintro ⟨a, hta, hc⟩
      obtain ⟨part, hpart, hmem⟩ := List.mem_flatten.1 hta
      obtain ⟨s, _, hgathered⟩ := hback part hpart
      obtain ⟨⟨howns, hpalette, hs⟩, hleads⟩ := hgathered.mem_iff.1 ⟨a, hmem, hc⟩
      exact ⟨s, howns, hpalette, hs, hleads⟩
    · rintro ⟨s, howns, hpalette, hs, hleads⟩
      obtain ⟨part, hpart, hgathered⟩ := hforth s (hmem ⟨howns, hpalette, hs⟩)
      obtain ⟨a, hta, hc⟩ := hgathered.mem_iff.2 ⟨⟨howns, hpalette, hs⟩, hleads⟩
      exact ⟨a, List.mem_flatten.2 ⟨part, hpart, hta⟩, hc⟩

/-- A value at a state is staged for the other owners of the states with a step to it. -/
theorem stageOwners_spec (h : ctx.Ready R S) {edges : List (Transition C)}
    (hedges : ∀ e ∈ edges, e.target < ctx.stateCount) {s : Nat} (hs : s < ctx.stateCount) {value : C}
    (hvalue : R.InDomain value) {start : Staging C}
    (hstart : start.Fits R ctx.stateCount ctx.partition.count ctx.id) :
    ∃ staging, edges.foldlM (fun (staging : Staging C) t => (do
        let owner := ctx.partition.owner t.target
        if owner = ctx.id then return staging
        else staging.push ctx.algebra owner s value : Except (Failure MapError) (Staging C)))
          start = .ok staging ∧
      staging.Fits R ctx.stateCount ctx.partition.count ctx.id ∧
      ∀ j t c, c ∈ staging.colorsFor R j t ↔ c ∈ start.colorsFor R j t ∨
        (t = s ∧ c ∈ R.colors value ∧ j ≠ ctx.id ∧ ∃ e ∈ edges, ctx.partition.owner e.target = j) := by
  refine foldlM_run (fun (done : List (Transition C)) (staging : Staging C) =>
    staging.Fits R ctx.stateCount ctx.partition.count ctx.id ∧
      ∀ j t c, c ∈ staging.colorsFor R j t ↔ c ∈ start.colorsFor R j t ∨
        (t = s ∧ c ∈ R.colors value ∧ j ≠ ctx.id ∧ ∃ e ∈ done, ctx.partition.owner e.target = j))
    ⟨hstart, by simp⟩ ?_
  rintro done e rest staging hsplit ⟨hfits, hcolors⟩
  by_cases howner : ctx.partition.owner e.target = ctx.id
  · refine ⟨staging, if_pos howner, hfits, ?_⟩
    intro j t c
    rw [hcolors]
    constructor
    · rintro (hc | ⟨rfl, hc, hj, e', he', rfl⟩)
      · exact .inl hc
      · exact .inr ⟨rfl, hc, hj, e', by simp [he'], rfl⟩
    · rintro (hc | ⟨rfl, hc, hj, e', he', rfl⟩)
      · exact .inl hc
      · rcases List.mem_append.1 he' with he' | he'
        · exact .inr ⟨rfl, hc, hj, e', he', rfl⟩
        · cases List.mem_singleton.1 he'
          exact absurd howner hj
  · have hlt := h.owner_lt (hedges e (by simp [hsplit]))
    obtain ⟨next, hnext, hnextFits, hnextColors⟩ := hfits.push_spec hlt howner hs hvalue
    refine ⟨next, by rw [if_neg howner, hnext], hnextFits, ?_⟩
    intro j t c
    rw [hnextColors]
    by_cases heq : j = ctx.partition.owner e.target ∧ t = s
    · obtain ⟨rfl, rfl⟩ := heq
      rw [if_pos ⟨rfl, rfl⟩, Finset.mem_union, hcolors]
      constructor
      · rintro ((hc | ⟨_, hc, _⟩) | hc)
        · exact .inl hc
        · exact .inr ⟨rfl, hc, howner, e, by simp, rfl⟩
        · exact .inr ⟨rfl, hc, howner, e, by simp, rfl⟩
      · rintro (hc | ⟨_, hc, _⟩)
        · exact .inl (.inl hc)
        · exact .inr hc
    · rw [if_neg heq, hcolors]
      constructor
      · rintro (hc | ⟨rfl, hc, hj, e', he', rfl⟩)
        · exact .inl hc
        · exact .inr ⟨rfl, hc, hj, e', by simp [he'], rfl⟩
      · rintro (hc | ⟨rfl, hc, hj, e', he', rfl⟩)
        · exact .inl hc
        · rcases List.mem_append.1 he' with he' | he'
          · exact .inr ⟨rfl, hc, hj, e', he', rfl⟩
          · cases List.mem_singleton.1 he'
            exact absurd ⟨rfl, rfl⟩ heq

/-- The values of a map are staged for the other owners of the states with a step to them. -/
theorem stageWitnesses_spec (h : ctx.Ready R S) (course : Course) {phi : StateMap C}
    {P : Nat → Set Nat} (hphi : ctx.Shows R P phi) :
    ∃ staging, stageWitnesses ctx course phi = .ok staging ∧
      staging.Fits R ctx.stateCount ctx.partition.count ctx.id ∧
      ∀ j s c, c ∈ staging.colorsFor R j s ↔ (ctx.Owns s ∧ c ∈ R.palette ∧ s ∈ P c) ∧ j ≠ ctx.id ∧
        ∃ e ∈ course.predecessors ctx.model s, ctx.partition.owner e.target = j := by
  obtain ⟨entries, hentries, hlisted⟩ := hphi.entries_spec h.stateCount_le
  obtain ⟨hnew, hempty⟩ := Staging.new_spec ctx h
  simp only [← hlisted.mem_iff]
  rw [stageWitnesses, StateMap.foldEntries_eq (fun _ => rfl) hentries]
  refine foldlM_run (fun done (staging : Staging C) =>
    staging.Fits R ctx.stateCount ctx.partition.count ctx.id ∧
      ∀ j s c, c ∈ staging.colorsFor R j s ↔ (∃ a, (s, a) ∈ done ∧ c ∈ R.colors a) ∧ j ≠ ctx.id ∧
        ∃ e ∈ course.predecessors ctx.model s, ctx.partition.owner e.target = j)
    ⟨hnew, by simp [hempty]⟩ ?_
  rintro done ⟨s, a⟩ rest staging hsplit ⟨hfits, hcolors⟩
  have hmem : (s, a) ∈ entries := by simp [hsplit]
  obtain ⟨next, hnext, hnextFits, hnextColors⟩ := stageOwners_spec h
    (fun e he => h.stateCount_eq ▸ (h.serves.inDomain_predecessors he).1)
    (hlisted.within hmem).1 (hlisted.inDomain hmem) hfits
  refine ⟨next, hnext, hnextFits, ?_⟩
  intro j t c
  rw [hnextColors, hcolors]
  constructor
  · rintro (⟨⟨b, hb, hc⟩, hj, hleads⟩ | ⟨rfl, hc, hj, hleads⟩)
    · exact ⟨⟨b, by simp [hb], hc⟩, hj, hleads⟩
    · exact ⟨⟨a, by simp, hc⟩, hj, hleads⟩
  · rintro ⟨⟨b, hb, hc⟩, hj, hleads⟩
    rcases List.mem_append.1 hb with hb | hb
    · exact .inl ⟨⟨b, hb, hc⟩, hj, hleads⟩
    · cases List.mem_singleton.1 hb
      exact .inr ⟨rfl, hc, hj, hleads⟩

/-- What is left of a value are the colors for which no transition leads out of the map. -/
theorem decide?_spec {target? : Nat → Except Misuse (Option C)} {G : Nat → Nat → Prop}
    {edges : List (Transition C)} (hedges : ∀ e ∈ edges, R.InDomain e.bound)
    (htarget : ∀ e ∈ edges, ∃ good, target? e.target = .ok good ∧ R.Accepts good ∧
      ∀ c, c ∈ R.colorsOf good ↔ G e.target c) {value : C} (hvalue : R.InDomain value) :
    ∃ left, decide? ctx target? edges value = .ok left ∧ R.Accepts left ∧
      ∀ c, c ∈ R.colorsOf left ↔
        c ∈ R.colors value ∧ ∀ e ∈ edges, c ∈ R.colors e.bound → G e.target c := by
  induction edges generalizing value with
  | nil =>
    obtain ⟨left, hleft, haccepts, hcolors, _⟩ := R.nonempty?_spec hvalue
    exact ⟨left, hleft, haccepts, by simp [hcolors]⟩
  | cons e rest ih =>
    obtain ⟨good, hgood, hgoodAccepts, hgoodColors⟩ := htarget e List.mem_cons_self
    have hbound := hedges e List.mem_cons_self
    obtain ⟨falsified, hfalsifiedOk, hfalsifiedIn, hfalsifiedColors⟩ :=
      R.diffOpt_spec hbound hgoodAccepts
    obtain ⟨next, hnext, hnextIn, hnextColors⟩ := R.diff_spec hvalue hfalsifiedIn
    obtain ⟨found, hfound, hiff⟩ := R.nonempty_spec hnextIn
    have hkept : ∀ c, c ∈ R.colors next ↔ c ∈ R.colors value ∧
        (c ∈ R.colors e.bound → G e.target c) := by
      intro c
      rw [hnextColors, Finset.mem_sdiff, hfalsifiedColors, Finset.mem_sdiff, hgoodColors]
      tauto
    have hunfold : decide? ctx target? (e :: rest) value =
        if found then decide? ctx target? rest next else .ok none := by
      rw [decide?, hgood, ok_bind]
      cases good with
      | none =>
        cases hfalsifiedOk
        simp only [pure_bind, hnext, Operations.maybeNonempty, hfound, ok_bind]
        rfl
      | some good =>
        simp only at hfalsifiedOk
        simp only [hfalsifiedOk, hnext, Operations.maybeNonempty, hfound, ok_bind]
        rfl
    rw [hunfold]
    cases found with
    | false =>
      refine ⟨none, rfl, R.accepts_none, ?_⟩
      intro c
      have hnone : ¬(c ∈ R.colors value ∧ (c ∈ R.colors e.bound → G e.target c)) := by
        rw [← hkept]
        intro hc
        exact absurd (hiff.2 ⟨c, hc⟩) (by simp)
      simp only [Reading.colorsOf_none, Finset.notMem_empty, false_iff, List.forall_mem_cons]
      tauto
    | true =>
      obtain ⟨left, hleft, haccepts, hcolors⟩ := ih
        (fun e' he' => hedges e' (List.mem_cons_of_mem _ he'))
        (fun e' he' => htarget e' (List.mem_cons_of_mem _ he')) hnextIn
      refine ⟨left, hleft, haccepts, ?_⟩
      intro c
      rw [hcolors, hkept, List.forall_mem_cons, and_assoc]

/-- What is decided about a candidate for "every step". -/
def decideAt (ctx : Context C) (course : Course) (target? : Nat → Except Misuse (Option C))
    (candidates : StateMap C) (s : Nat) : Except Misuse (Option (Nat × C)) := do
  match ← candidates.get? ctx.algebra s with
  | none => return none
  | some value => return (← decide? ctx target? (course.successors ctx.model s) value).map (s, ·)

theorem decideAt_eq (ctx : Context C) (course : Course) (target? : Nat → Except Misuse (Option C))
    (candidates : StateMap C) (s : Nat) :
    (do
      match ← candidates.get? ctx.algebra s with
      | none => return none
      | some value =>
        let left ← decide? ctx target? (course.successors ctx.model s) value
        return left.map (s, ·) : Worker C (Option (Nat × C))) =
      liftM (decideAt ctx course target? candidates s) := by
  unfold decideAt
  cases candidates.get? ctx.algebra s with
  | error cause => rfl
  | ok value =>
    cases value with
    | none => rfl
    | some value =>
      change (liftM (decide? ctx target? (course.successors ctx.model s) value) >>= fun left =>
        pure (left.map (s, ·)) : Worker C (Option (Nat × C))) =
          liftM (decide? ctx target? (course.successors ctx.model s) value >>= fun left =>
            pure (left.map (s, ·)))
      cases decide? ctx target? (course.successors ctx.model s) value <;> rfl

/-- The part of "every step" before its candidates are known: the values at the states of others. -/
def witnesses (ctx : Context C) (course : Course) (phi : StateMap C) : Worker C (StateMap C) := do
  let staging ← Attempt.ofMap (stageWitnesses ctx course phi)
  let received ← Worker.exchange staging.outgoing
  return .ofEntries (received.getD []) ctx.stateCount

/-- The value of a map at any state. -/
def target? (ctx : Context C) (phi witnesses : StateMap C) (state : Nat) : Except Misuse (Option C) :=
  if ctx.partition.isLocal state then phi.get? ctx.algebra state
  else witnesses.get? ctx.algebra state

/-- The part of "every step" after its candidates are known. -/
def settle (ctx : Context C) (course : Course) (phi witnesses candidates : StateMap C) :
    Worker C (StateMap C) := do
  let states ← candidates.states
  let decided : Packet C ←
    (states.filterMapM (decideAt ctx course (target? ctx phi witnesses) candidates) : Except Misuse _)
  let result ← ctx.newResult
  let own ← Attempt.ofMap (result.addAll ctx.algebra decided)
  return own.freeze

theorem everyStep_eq (ctx : Context C) (course : Course) (phi : StateMap C) :
    everyStep ctx course phi = (do
      let witnesses ← witnesses ctx course phi
      let candidates ← someStep ctx course phi
      settle ctx course phi witnesses candidates) := by
  simp only [everyStep, witnesses, settle, bind_assoc, pure_bind]
  refine bind_congr fun staging => bind_congr fun received => bind_congr fun candidates =>
    bind_congr fun states => ?_
  exact congrArg (· >>= _) (Crew.filterMapM_eq_liftM
    (decideAt_eq ctx course (target? ctx phi (.ofEntries (received.getD []) ctx.stateCount)) candidates)
    states)

/-- Everything is decided about the states that have a candidate, when the values of the map are known
at all states that these step to. -/
theorem decideAll_spec (h : ctx.Ready R S) (course : Course) {P Q : Nat → Set Nat}
    {candidates : StateMap C} (hcandidates : ctx.Shows R Q candidates)
    {target? : Nat → Except Misuse (Option C)} {G : Nat → Nat → Prop}
    (htarget : ∀ t, ∃ good, target? t = .ok good ∧ R.Accepts good ∧ ∀ c, c ∈ R.colorsOf good ↔ G t c)
    (hG : ∀ s t c, ctx.Owns s → c ∈ R.palette → (S c).Leads course s t → (G t c ↔ t ∈ P c))
    {states : List Nat} (horder : states.Pairwise (· < ·)) (hwithin : ∀ s ∈ states, ctx.Owns s)
    (hstates : ∀ s c, ctx.Owns s → c ∈ R.palette → s ∈ Q c → s ∈ states) :
    ∃ entries, states.filterMapM (decideAt ctx course target? candidates) = .ok entries ∧
      Gathered R ctx.Owns (fun s c => ctx.Owns s ∧ c ∈ R.palette ∧
        (s ∈ Q c ∧ ∀ t, (S c).Leads course s t → t ∈ P c)) entries := by
  obtain ⟨entries, hentries, hlisted⟩ := select_spec (R := R) (k := fun s => s) horder
    (f := decideAt ctx course target? candidates)
    (Ψ := fun s c => (ctx.Owns s ∧ c ∈ R.palette ∧ s ∈ Q c) ∧
      ∀ e ∈ course.successors ctx.model s, c ∈ R.colors e.bound → G e.target c) (by
      intro s _
      obtain ⟨value, hvalue, haccepts, hcolors⟩ := hcandidates.get?_spec s
      cases value with
      | none =>
        refine ⟨none, by rw [decideAt, hvalue]; rfl, .of_value (v := none) R.accepts_none ?_⟩
        intro c
        rw [← hcolors]
        simp
      | some a =>
        obtain ⟨left, hleft, hleftAccepts, hleftColors⟩ := decide?_spec
          (fun e (he : e ∈ course.successors ctx.model s) => (h.serves.inDomain_successors he).2)
          (fun e _ => htarget e.target) (haccepts a rfl)
        refine ⟨left.map (s, ·), ?_, .of_value hleftAccepts fun c => ?_⟩
        · rw [decideAt, hvalue, ok_bind]
          simp only [hleft, ok_bind]
          rfl
        · rw [hleftColors, ← hcolors, R.colorsOf_some])
  refine ⟨entries, hentries, hlisted.toGathered.congr ?_ ?_⟩
  · rintro _ ⟨s, hs, rfl⟩
    exact hwithin s hs
  · intro s c
    constructor
    · rintro ⟨s, _, rfl, ⟨howns, hpalette, hs⟩, hedges⟩
      refine ⟨howns, hpalette, hs, ?_⟩
      intro t hleads
      obtain ⟨e, he, rfl, hc⟩ := h.serves.leads_iff_successors.1 hleads
      exact (hG s e.target c howns hpalette hleads).1 (hedges e he hc)
    · rintro ⟨howns, hpalette, hs, hall⟩
      refine ⟨s, hstates s c howns hpalette hs, rfl, ⟨howns, hpalette, hs⟩, ?_⟩
      intro e he hc
      have hleads := h.serves.leads_iff_successors.2 ⟨e, he, rfl, hc⟩
      exact (hG s e.target c howns hpalette hleads).2 (hall e.target hleads)

end Next

namespace Team

variable {R : Reading A} {M : Model C} {S : Nat → Kripke} {K : Nat} (T : Team R M S K)

/-- Together the workers find the states with some step into the map. -/
theorem someStep_spec (course : Course) {phi : Fin K → StateMap C} {P : Nat → Set Nat}
    (hphi : T.Shows P phi) :
    T.EndsBy .push (fun i => Next.someStep (T.ctx i) course (phi i))
      (T.Lists fun c => {s | (S c).Next .some course (P c) s}) := by
  refine .bind (.compute fun i => Next.contributions_spec (T.ready i) course (hphi i)) ?_
  intro packet hpacket
  refine .bind (.compute fun i => Scatter.new_spec (T.ready i)) ?_
  intro start hstart
  refine .bind (.grow fun i => Scatter.addAll_spec (T.ready i)
    (fun t a hta => ⟨(hpacket i).within hta, (hpacket i).inDomain hta⟩) (hstart i)) ?_
  intro scattered hscattered
  refine .bind (T.exchange_spec (fun i => (hscattered i).staging_fits) (.inl ?_)) ?_
  · rintro i j s ⟨c, hc⟩
    exact ((hscattered i).mem_staging.1 hc).2.1
  intro incoming hreceived
  have howns : ∀ {i s a}, (s, a) ∈ (incoming i).getD [] → (T.ctx i).Owns s ∧ R.InDomain a := by
    intro i s a hsa
    obtain ⟨hs, ha, j, c, hc⟩ := hreceived.entry hsa
    exact ⟨⟨hs, ((hscattered j).mem_staging.1 hc).2.1⟩, ha⟩
  refine .bind (.grow fun i => (hscattered i).own_fits.addAll_spec fun s a hsa =>
    ⟨(hscattered i).own_range s (howns hsa).1, (howns hsa).2⟩) ?_
  intro own hown
  refine .done fun i => ?_
  obtain ⟨hfits, _, hcolors⟩ := hown i
  refine hfits.freeze_shows ?_ fun s c hsc => ⟨c, hsc⟩
  intro s c
  rw [hcolors, hreceived.mem_iff, (hscattered i).mem_own]
  simp only [(hscattered _).mem_staging, (hpacket _).mem_iff]
  constructor
  · rintro (⟨howner, t, _, hpalette, ht, hleads⟩ | ⟨j, _, howner, t, _, hpalette, ht, hleads⟩)
    · exact ⟨⟨(T.serves.lt_of_leads hleads).1, howner⟩, hpalette, t, hleads, ht⟩
    · exact ⟨⟨(T.serves.lt_of_leads hleads).1, howner⟩, hpalette, t, hleads, ht⟩
  · rintro ⟨⟨_, howner⟩, hpalette, t, hleads, ht⟩
    obtain ⟨j, hj⟩ := T.exists_owns (T.serves.lt_of_leads hleads).2
    by_cases hij : i = j
    · subst hij
      exact .inl ⟨howner, t, hj, hpalette, ht, hleads⟩
    · exact .inr ⟨j, fun heq => hij (Fin.ext heq), howner, t, hj, hpalette, ht, hleads⟩

/-- The map has the values of a family of sets at the states of others that the worker's own states step
to. -/
def Witnesses (course : Course) (P : Nat → Set Nat) (i : Fin K) (witnesses : StateMap C) : Prop :=
  ∃ Φ : Nat → Nat → Prop, witnesses.Shows R M.stateCount (· < M.stateCount) Φ ∧
    ∀ {s t c}, (T.ctx i).Owns s → c ∈ R.palette → (S c).Leads course s t → T.owner t ≠ i →
      (Φ t c ↔ t ∈ P c)

/-- Together the workers come to know the values at the states that their own states step to. -/
theorem witnesses_spec (course : Course) {phi : Fin K → StateMap C} {P : Nat → Set Nat}
    (hphi : T.Shows P phi) :
    T.Ends (fun i => Next.witnesses (T.ctx i) course (phi i)) fun witnesses =>
      ∀ i, T.Witnesses course P i (witnesses i) := by
  refine .bind (.grow fun i => Next.stageWitnesses_spec (T.ready i) course (hphi i)) ?_
  intro staging hstaging
  have hsender : ∀ i j s, ((staging i).colorsFor R j s).Nonempty → T.owner s = i := by
    rintro i j s ⟨c, hc⟩
    exact (((hstaging i).2 j s c).1 hc).1.1.2
  refine .bind (T.exchange_spec (fun i => (hstaging i).1) (.inr ⟨rfl, hsender⟩)) ?_
  intro incoming hreceived
  refine .done fun i => ⟨fun s c => ∃ j, c ∈ (staging j).colorsFor R i s, ?_, ?_⟩
  · exact Gathered.ofEntries ⟨fun hsa => (hreceived.entry hsa).1,
      fun hsa => (hreceived.entry hsa).2.1, hreceived.mem_iff⟩
      (hreceived.nodup T (fun i => (hstaging i).1) hsender i) fun s hs => hs
  · intro s t c howns hpalette hleads hremote
    constructor
    · rintro ⟨j, hc⟩
      exact (((hstaging j).2 i t c).1 hc).1.2.2
    · intro hmem
      obtain ⟨j, hj⟩ := T.exists_owns (T.serves.lt_of_leads hleads).2
      obtain ⟨e, he, rfl, _⟩ := T.serves.leads_iff_predecessors.1 hleads
      refine ⟨j, ((hstaging j).2 i t c).2 ⟨⟨hj, hpalette, hmem⟩, ?_, e, he, howns.2⟩⟩
      intro heq
      exact hremote (hj.2.trans heq.symm)

/-- What a worker knows of a map at any state: its own values, or those of the witnesses. -/
theorem target?_spec {P : Nat → Set Nat} {i : Fin K} {phi witnesses : StateMap C}
    (hphi : (T.ctx i).Shows R P phi) {Φ : Nat → Nat → Prop}
    (hwitnesses : witnesses.Shows R M.stateCount (· < M.stateCount) Φ) (t : Nat) :
    ∃ good, Next.target? (T.ctx i) phi witnesses t = .ok good ∧ R.Accepts good ∧
      ∀ c, c ∈ R.colorsOf good ↔
        if T.owner t = i then (T.ctx i).Owns t ∧ c ∈ R.palette ∧ t ∈ P c else Φ t c := by
  by_cases hlocal : T.owner t = i
  · obtain ⟨good, hgood, haccepts, hcolors⟩ := hphi.get?_spec t
    have hisLocal : (T.ctx i).partition.isLocal t = true := beq_iff_eq.2 hlocal
    exact ⟨good, by rw [Next.target?, if_pos hisLocal, hgood], haccepts,
      by simpa only [if_pos hlocal] using hcolors⟩
  · obtain ⟨good, hgood, haccepts, hcolors⟩ := hwitnesses.get?_spec t
    have hisLocal : ¬(T.ctx i).partition.isLocal t = true := fun h => hlocal (beq_iff_eq.1 h)
    exact ⟨good, by rw [Next.target?, if_neg hisLocal, hgood], haccepts,
      by simpa only [if_neg hlocal] using hcolors⟩

/-- Together the workers find the states with a step, all steps of which lead into the map, when they
know the states with some step into it and the values at the states of others. -/
theorem settle_spec (course : Course) {phi witnesses candidates : Fin K → StateMap C}
    {P : Nat → Set Nat} (hphi : T.Shows P phi) (hwitnesses : ∀ i, T.Witnesses course P i (witnesses i))
    (hcandidates : T.Shows (fun c => {s | (S c).Next .some course (P c) s}) candidates) :
    T.Ends (fun i => Next.settle (T.ctx i) course (phi i) (witnesses i) (candidates i))
      (T.Lists fun c => {s | (S c).Next .all course (P c) s}) := by
  choose Φ hshows hΦ using hwitnesses
  have hG : ∀ i s t c, (T.ctx i).Owns s → c ∈ R.palette → (S c).Leads course s t →
      ((if T.owner t = i then (T.ctx i).Owns t ∧ c ∈ R.palette ∧ t ∈ P c else Φ i t c) ↔ t ∈ P c) := by
    intro i s t c howns hpalette hleads
    by_cases hlocal : T.owner t = i
    · rw [if_pos hlocal]
      exact ⟨fun h => h.2.2, fun h => ⟨⟨(T.serves.lt_of_leads hleads).2, hlocal⟩, hpalette, h⟩⟩
    · rw [if_neg hlocal]
      exact hΦ i howns hpalette hleads hlocal
  refine .bind (.compute fun i => (hcandidates i).states_spec (T.ready i).stateCount_le) ?_
  intro states hstates
  refine .bind (Q := fun decided => ∀ i, Gathered R (T.ctx i).Owns (fun s c => (T.ctx i).Owns s ∧
    c ∈ R.palette ∧ s ∈ {s | (S c).Next .all course (P c) s}) (decided i)) ?_ ?_
  · have hdecide : ∀ i, ∃ decided, (states i).filterMapM (Next.decideAt (T.ctx i) course
        (Next.target? (T.ctx i) (phi i) (witnesses i)) (candidates i)) = .ok decided ∧
          Gathered R (T.ctx i).Owns (fun s c => (T.ctx i).Owns s ∧ c ∈ R.palette ∧
            s ∈ {s | (S c).Next .all course (P c) s}) decided := by
      intro i
      obtain ⟨horder, hwithin, hmem⟩ := hstates i
      obtain ⟨decided, hdecided, hgathered⟩ := Next.decideAll_spec (T.ready i) course (hcandidates i)
        (T.target?_spec (hphi i) (hshows i)) (hG i) horder (fun s hs => (hwithin s hs).1)
        fun s c howns hpalette hs => hmem ⟨howns, hpalette, hs⟩
      refine ⟨decided, hdecided, hgathered.congr (fun s hs => hs) fun s c => ?_⟩
      refine and_congr_right fun _ => and_congr_right fun _ => ?_
      constructor
      · rintro ⟨⟨t, hleads, _⟩, hall⟩
        exact ⟨⟨t, hleads⟩, hall⟩
      · rintro ⟨⟨t, hleads⟩, hall⟩
        exact ⟨⟨t, hleads, hall t hleads⟩, hall⟩
    exact .compute hdecide
  intro decided hdecided
  refine .bind (.compute fun i => (T.ready i).newResult_spec) ?_
  intro result hresult
  refine .bind (.grow fun i => (hresult i).1.addAll_spec fun s a hsa =>
    ⟨(hresult i).2.1 s ((hdecided i).within hsa), (hdecided i).inDomain hsa⟩) ?_
  intro own hown
  refine .done fun i => ?_
  obtain ⟨hfits, _, hcolors⟩ := hown i
  refine hfits.freeze_shows ?_ fun s c hsc => ⟨c, hsc⟩
  intro s c
  rw [hcolors, (hresult i).2.2, (hdecided i).mem_iff]
  simp

/-- Together the workers find the states with a step, all steps of which lead into the map. -/
theorem everyStep_spec (course : Course) {phi : Fin K → StateMap C} {P : Nat → Set Nat}
    (hphi : T.Shows P phi) :
    T.Ends (fun i => Next.everyStep (T.ctx i) course (phi i))
      (T.Lists fun c => {s | (S c).Next .all course (P c) s}) := by
  simp only [Next.everyStep_eq]
  refine (T.witnesses_spec course hphi).bind fun witnesses hwitnesses => ?_
  refine (T.someStep_spec course hphi).tell.bind fun candidates hcandidates => ?_
  exact T.settle_spec course hphi hwitnesses hcandidates.shows

end Team

end ColoredCtl

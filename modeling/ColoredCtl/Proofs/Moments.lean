import ColoredCtl.Proofs.Settling

namespace ColoredCtl

open Color

namespace Until

variable {C : Type} {ctx : Context C} {R : Reading ctx.algebra} {S : Nat → Kripke} {course : Course}
  {path : StateMap C}

section Notify

variable {s : Search C (Cover C)} {told : Packet C} {value : C}

/-- All states with transitions to a target are told a value of it. No state stands twice among those that
depend on the target, so each of them is told once. -/
theorem notify_spec (hs : s.Fits ctx R) (hcover : s.memory.Tracks ctx R course path fun _ => told)
    (hraises : s.memory.Raises R s.result) (hvalue : R.InDomain value) (u : Nat) :
    ∃ s', notify ctx s u value = .ok s' ∧ s'.Fits ctx R ∧ Search.Extends ctx R s s' ∧
      s'.memory.Tracks ctx R course path (fun _ => (u, value) :: told) ∧
      s'.memory.Raises R s'.result := by
  have hrun : ∃ s', notify ctx s u value = .ok s' ∧ s'.Fits ctx R ∧ Search.Extends ctx R s s' ∧
      s'.memory.Raises R s'.result ∧ s'.memory.dependents = s.memory.dependents ∧
      s'.memory.Tracks ctx R course path fun p =>
        if p ∈ (s.memory.dependents[u]?.getD []).reverse then (u, value) :: told else told := by
    refine foldlM_run (fun (done : List Nat) (s' : Search C (Cover C)) => s'.Fits ctx R ∧
      Search.Extends ctx R s s' ∧ s'.memory.Raises R s'.result ∧
      s'.memory.dependents = s.memory.dependents ∧ s'.memory.Tracks ctx R course path fun p =>
        if p ∈ done then (u, value) :: told else told)
      ⟨hs, .refl s, hraises, rfl, by simpa using hcover⟩ ?_
    rintro done p rest s' hsplit ⟨hfits, hext, hraises', hdependents, htracks⟩
    have hfresh : p ∉ done := by
      have hnodup := List.nodup_reverse.2 (hcover.nodup u)
      rw [hsplit] at hnodup
      exact fun hmem => (List.nodup_append.1 hnodup).2.2 p hmem p List.mem_cons_self rfl
    obtain ⟨cov, hcov, _⟩ : ∃ cov, s'.memory.coverage[p]? = some cov ∧ ∃ edge ∈ cov.edges, edge.1 = u := by
      rw [← htracks.mem_iff, hdependents, ← List.mem_reverse, hsplit]
      simp
    have hcovTracks := htracks.tracks hcov
    obtain ⟨next, last, hlast, hnext, hafter, hlastFits, hlastExt, _, hlastRaises, _⟩ :=
      notifyState_spec hfits hraises' hcov hcovTracks.owns hcovTracks.base_in
        (fun _ => hcovTracks.edge_in) hvalue u
    refine ⟨last, hlast, hlastFits, hext.trans hlastExt, hlastRaises,
      hafter.dependents_eq.trans hdependents, ?_⟩
    have hlastTracks := htracks.shrink hcov hnext hafter
    rw [if_neg hfresh] at hlastTracks
    convert hlastTracks using 1
    funext q
    by_cases hq : q = p
    · simp [hq]
    · simp [hq]
  obtain ⟨s', hs', hfits, hext, hraises', hdependents, htracks⟩ := hrun
  refine ⟨s', hs', hfits, hext, ⟨?_, htracks.exists_iff, htracks.nodup, htracks.mem_iff⟩, hraises'⟩
  intro p cov hcov
  have hcovTracks := htracks.tracks hcov
  split at hcovTracks
  · exact hcovTracks
  · next hother =>
    -- A state that does not depend on the target has no transition to it.
    refine hcovTracks.tell (fun edge hedge htarget => hother ?_) value
    rw [List.mem_reverse, ← hdependents]
    exact htracks.mem_iff.2 ⟨cov, hcov, edge, hedge, htarget⟩

end Notify

/-- A search between two steps of its loops, with what has happened so far: the values that its states have
been told, and the values that were passed on from their states, the last ones first. -/
structure Moment (C : Type) where
  search : Search C (Cover C)
  told : Packet C
  passed : Packet C

/-- The loop that a search is in, with what is left of it. -/
inductive Place (C : Type) where
  | seeding (rest : Packet C)
  | working (round : Nat)
  | receiving (round : Nat) (rest : Packet C)

/-- The moments that a search comes to from its seeds, when it receives the given values in each round. -/
inductive Reached (ctx : Context C) (course : Course) (cover : Cover C) (seeds : Packet C)
    (incoming : Nat → Incoming C) : Place C → Moment C → Prop
  | start {s} (h : Search.new ctx cover = .ok s) :
      Reached ctx course cover seeds incoming (.seeding seeds) ⟨s, [], []⟩
  | seed {m t a rest s} (hm : Reached ctx course cover seeds incoming (.seeding ((t, a) :: rest)) m)
      (h : m.search.raise ctx t a = .ok s) :
      Reached ctx course cover seeds incoming (.seeding rest) { m with search := s }
  | seeded {m} (hm : Reached ctx course cover seeds incoming (.seeding []) m) :
      Reached ctx course cover seeds incoming (.working 0) m
  | handle {r m t work value s} (hm : Reached ctx course cover seeds incoming (.working r) m)
      (hpop : m.search.work.pop = (some t, work)) (hvalue : m.search.result.get? t = some value)
      (h : (everyRule ctx course).propagate { m.search with work } t value = .ok s) :
      Reached ctx course cover seeds incoming (.working r)
        ⟨s, (t, value) :: m.told, (t, value) :: m.passed⟩
  | skip {r m t work} (hm : Reached ctx course cover seeds incoming (.working r) m)
      (hpop : m.search.work.pop = (some t, work)) (hvalue : m.search.result.get? t = none) :
      Reached ctx course cover seeds incoming (.working r) { m with search := { m.search with work } }
  | exchange {r m received} (hm : Reached ctx course cover seeds incoming (.working r) m)
      (hstack : m.search.work.stack = []) (h : incoming r = some received) :
      Reached ctx course cover seeds incoming (.receiving r received)
        { m with search := { m.search with staging := m.search.staging.clear } }
  | receive {r m t a rest s} (hm : Reached ctx course cover seeds incoming (.receiving r ((t, a) :: rest)) m)
      (h : (everyRule ctx course).receive m.search t a = .ok s) :
      Reached ctx course cover seeds incoming (.receiving r rest) ⟨s, (t, a) :: m.told, m.passed⟩
  | received {r m} (hm : Reached ctx course cover seeds incoming (.receiving r []) m) :
      Reached ctx course cover seeds incoming (.working (r + 1)) m

/-- What holds at every moment of a search. -/
structure Moment.Consistent (ctx : Context C) {A : Algebra C} (R : Reading A) (course : Course)
    (path : StateMap C) (m : Moment C) : Prop where
  /-- The work-set lists the states of its set, each once. -/
  fits : m.search.Fits ctx R
  /-- The uncovered colors of a transition are those of its bound that no value told for its target has,
  and each state with a coverage is noted once for each of its targets, and no other state is. -/
  tracks : m.search.memory.Tracks ctx R course path fun _ => m.told
  /-- The result has the colors of a state that none of its transitions keeps. -/
  raises : m.search.memory.Raises R m.search.result
  passed_subset : ∀ t, R.colorsOf (m.passed.lookup t) ⊆ m.search.result.colorsAt R t
  /-- A state waits if its result is larger than the value that was last passed on from it. -/
  waits : ∀ {t}, R.colorsOf (m.passed.lookup t) ⊂ m.search.result.colorsAt R t → t ∈ m.search.work.stack

namespace Moment.Consistent

variable {m : Moment C}

theorem start (h : ctx.Ready R S) {cover : Cover C} (hcover : cover.Tracks ctx R course path fun _ => [])
    {s : Search C (Cover C)} (hs : Search.new ctx cover = .ok s) :
    Consistent ctx R course path ⟨s, [], []⟩ := by
  obtain ⟨start, hstart, hfits, hmemory, _, _, hempty⟩ := Search.new_spec h cover
  cases hs.symm.trans hstart
  refine ⟨hfits, hmemory ▸ hcover, ?_, ?_, ?_⟩
  · intro p cov hcov c hconfirms
    rw [hmemory] at hcov
    exact absurd hconfirms ((hcover.tracks hcov).not_confirms c)
  · intro t
    exact Finset.empty_subset _
  · intro t hlarger
    rw [hempty] at hlarger
    exact absurd hlarger (Finset.not_ssubset_empty _)

/-- A state whose result has grown waits, so a search that goes on stays consistent. -/
theorem extend (h : m.Consistent ctx R course path) {s : Search C (Cover C)} {told : Packet C}
    (hfits : s.Fits ctx R) (hext : Search.Extends ctx R m.search s)
    (htracks : s.memory.Tracks ctx R course path fun _ => told) (hraises : s.memory.Raises R s.result) :
    Consistent ctx R course path ⟨s, told, m.passed⟩ := by
  refine ⟨hfits, htracks, hraises, fun t => (h.passed_subset t).trans (hext.grows t), ?_⟩
  intro t hlarger
  by_contra hnot
  have hwaits := hext.queued (h.waits (t := t) (hext.unchanged hnot ▸ hlarger))
  exact hnot hwaits

theorem raise (h : m.Consistent ctx R course path) {t : Nat} {a : C} (ht : ctx.Owns t)
    (ha : R.InDomain a) {s : Search C (Cover C)} (hs : m.search.raise ctx t a = .ok s) :
    Consistent ctx R course path { m with search := s } := by
  obtain ⟨s', hs', hfits, _, hmemory, hext, _⟩ := h.fits.raise_spec ht ha
  cases hs.symm.trans hs'
  refine h.extend hfits hext (hmemory ▸ h.tracks) ?_
  rw [hmemory]
  exact fun p cov hcov c hconfirms => hext.grows p (h.raises p cov hcov c hconfirms)

/-- A notification tells the states that depend on the target. -/
theorem notify (h : m.Consistent ctx R course path) {u : Nat} {a : C} (ha : R.InDomain a)
    {s : Search C (Cover C)} (hs : Until.notify ctx m.search u a = .ok s) :
    Consistent ctx R course path ⟨s, (u, a) :: m.told, m.passed⟩ := by
  obtain ⟨s', hs', hfits, hext, htracks, hraises⟩ := notify_spec h.fits h.tracks h.raises ha u
  cases hs.symm.trans hs'
  exact h.extend hfits hext htracks hraises

/-- A state that is taken from the work-set with its value as the last one passed on. -/
theorem pop (h : m.Consistent ctx R course path) {t : Nat} {work : WorkSet} {value : C}
    (hpop : m.search.work.pop = (some t, work)) (hvalue : m.search.result.get? t = some value) :
    Consistent ctx R course path ⟨{ m.search with work }, m.told, (t, value) :: m.passed⟩ := by
  obtain ⟨rest, hstack, rfl⟩ := Search.pop_eq_some_iff.1 hpop
  have hcolors : m.search.result.colorsAt R t = R.colors value := Accumulator.colorsAt_of_get? hvalue
  have hother {u : Nat} (hne : u ≠ t) : ((t, value) :: m.passed).lookup u = m.passed.lookup u := by
    rw [List.lookup_cons, beq_false_of_ne hne]
  refine ⟨h.fits.pop hstack, h.tracks, h.raises, ?_, ?_⟩
  · intro u
    by_cases heq : u = t
    · simp [heq, hcolors]
    · rw [hother heq]
      exact h.passed_subset u
  · intro u hlarger
    by_cases heq : u = t
    · simp [heq, hcolors] at hlarger
    · rw [hother heq] at hlarger
      have hwaits := h.waits hlarger
      rw [hstack] at hwaits
      exact (List.mem_cons.1 hwaits).resolve_left heq

/-- The value of a state is staged for other workers, and the states that depend on it are told. -/
theorem propagate (h : m.Consistent ctx R course path) (hready : ctx.Ready R S) {t : Nat} (ht : ctx.Owns t)
    {value : C} (hvalue : R.InDomain value) {s : Search C (Cover C)}
    (hs : (everyRule ctx course).propagate m.search t value = .ok s) :
    Consistent ctx R course path ⟨s, (t, value) :: m.told, m.passed⟩ := by
  obtain ⟨_, hstaged, ⟨staging, rfl⟩, hfits, hext, _⟩ := stageValue_spec hready h.fits ht.1 hvalue course
  obtain ⟨_, hstaged', hs⟩ := bind_eq_ok_iff.1 hs
  cases hstaged.symm.trans hstaged'
  exact (h.extend hfits hext h.tracks h.raises).notify hvalue hs

end Moment.Consistent

/-- What is received in the rounds are values of the domain. -/
def Receivable {A : Algebra C} (R : Reading A) (incoming : Nat → Incoming C) : Prop :=
  ∀ r received, incoming r = some received → ∀ t a, (t, a) ∈ received → R.InDomain a

/-- What is left of a loop can be taken: seeds for states of the worker, and values of the domain. -/
def Place.Admits (ctx : Context C) (R : Reading ctx.algebra) : Place C → Prop
  | .seeding rest => ∀ t a, (t, a) ∈ rest → ctx.Owns t ∧ R.InDomain a
  | .working _ => True
  | .receiving _ rest => ∀ t a, (t, a) ∈ rest → R.InDomain a

namespace Reached

variable {cover : Cover C} {seeds : Packet C} {incoming : Nat → Incoming C} {place : Place C}
  {m : Moment C}

/-- Every moment is consistent, by induction on the steps that led to it. -/
theorem consistent (h : Reached ctx course cover seeds incoming place m) (hready : ctx.Ready R S)
    (hcover : cover.Tracks ctx R course path fun _ => [])
    (hseeds : ∀ t a, (t, a) ∈ seeds → ctx.Owns t ∧ R.InDomain a)
    (hincoming : Receivable R incoming) :
    m.Consistent ctx R course path ∧ place.Admits ctx R := by
  induction h with
  | start hs => exact ⟨.start hready hcover hs, hseeds⟩
  | seed _ hs ih =>
    obtain ⟨hm, hplace⟩ := ih
    obtain ⟨ht, ha⟩ := hplace _ _ List.mem_cons_self
    exact ⟨hm.raise ht ha hs, fun t a hmem => hplace t a (List.mem_cons_of_mem _ hmem)⟩
  | seeded _ ih => exact ⟨ih.1, trivial⟩
  | @handle r m t work value s _ hpop hvalue hs ih =>
    obtain ⟨hm, _⟩ := ih
    have hpopped := hm.pop hpop hvalue
    have ht : ctx.Owns t := by
      obtain ⟨rest, hstack, _⟩ := Search.pop_eq_some_iff.1 hpop
      obtain ⟨c, hc⟩ := hm.fits.pending (hstack ▸ List.mem_cons_self : t ∈ m.search.work.stack)
      exact hm.fits.within hc
    exact ⟨hpopped.propagate hready ht (hm.fits.result_fits.accepts t value hvalue) hs, trivial⟩
  | @skip r m t work _ hpop hvalue ih =>
    -- A state that waits has a value.
    obtain ⟨rest, hstack, _⟩ := Search.pop_eq_some_iff.1 hpop
    obtain ⟨c, hc⟩ := ih.1.fits.pending (hstack ▸ List.mem_cons_self : t ∈ m.search.work.stack)
    rw [Accumulator.colorsAt, hvalue] at hc
    cases hc
  | exchange _ _ hreceived ih =>
    obtain ⟨hm, _⟩ := ih
    exact ⟨⟨hm.fits.clear.1, hm.tracks, hm.raises, hm.passed_subset, hm.waits⟩, hincoming _ _ hreceived⟩
  | receive _ hs ih =>
    obtain ⟨hm, hplace⟩ := ih
    exact ⟨hm.notify (hplace _ _ List.mem_cons_self) hs,
      fun t a hmem => hplace t a (List.mem_cons_of_mem _ hmem)⟩
  | received _ ih => exact ⟨ih.1, trivial⟩

/-- A search that has taken its seeds is one of the moments. -/
theorem of_begins (course : Course) (incoming : Nat → Incoming C) {s : Search C (Cover C)}
    (h : Search.Begins ctx cover seeds s) :
    ∃ m, Reached ctx course cover seeds incoming (.working 0) m ∧ m.search = s := by
  obtain ⟨start, hstart, hfeed⟩ := h
  obtain ⟨m, hm, hs⟩ := of_foldlM_eq_ok
    (fun rest s => ∃ m, Reached ctx course cover seeds incoming (.seeding rest) m ∧ m.search = s) hfeed
    ⟨_, .start hstart, rfl⟩ (by
      rintro ⟨t, a⟩ rest _ next ⟨m, hm, rfl⟩ hnext
      exact ⟨_, hm.seed hnext, rfl⟩)
  exact ⟨m, hm.seeded, hs⟩

/-- Handling the states that wait leads from moment to moment. -/
theorem of_drains {turns r : Nat} {s d : Search C (Cover C)}
    (hm : Reached ctx course cover seeds incoming (.working r) m) (hs : m.search = s)
    (h : Search.Drains (everyRule ctx course) turns s d) :
    ∃ m, Reached ctx course cover seeds incoming (.working r) m ∧ m.search = d := by
  induction h generalizing m with
  | done => exact ⟨m, hm, hs⟩
  | step hturn _ ih =>
    subst hs
    obtain ⟨t, work, hpop, ⟨hnone, rfl⟩ | ⟨value, hvalue, hpropagate⟩⟩ := Search.turn_cases hturn
    · exact ih (hm.skip hpop hnone) rfl
    · exact ih (hm.handle hpop hvalue hpropagate) rfl

/-- So does taking what was received into account. -/
theorem of_feed {r : Nat} {received : Packet C} {next : Search C (Cover C)}
    (hm : Reached ctx course cover seeds incoming (.working r) m) (hstack : m.search.work.stack = [])
    (hreceived : incoming r = some received)
    (h : Search.feed (everyRule ctx course).receive
      { m.search with staging := m.search.staging.clear } received = .ok next) :
    ∃ m, Reached ctx course cover seeds incoming (.working (r + 1)) m ∧ m.search = next := by
  obtain ⟨m, hm, hs⟩ := of_foldlM_eq_ok
    (fun rest s => ∃ m, Reached ctx course cover seeds incoming (.receiving r rest) m ∧ m.search = s) h
    ⟨_, hm.exchange hstack hreceived, rfl⟩ (by
      rintro ⟨t, a⟩ rest _ next ⟨m, hm, rfl⟩ hnext
      exact ⟨_, hm.receive hnext, rfl⟩)
  exact ⟨m, hm.received, hs⟩

end Reached

end Until

namespace Team

variable {C : Type} {A : Algebra C} {R : Reading A} {M : Model C} {S : Nat → Kripke} {K : Nat}
  {T : Team R M S K} {weak : Bool} {course : Course} {P Q : Nat → Set Nat}

/-- The searches of workers that settle are moments, when a turn starts and when they are ready for its
round. -/
theorem everyPlan_reached {rounds : Nat} {start ready : Nat → Fin K → Search C (Until.Cover C)}
    {incoming : Nat → Fin K → Incoming C}
    (hturn : ∀ r ≤ rounds, (T.everyPlan weak course P Q).Turn T (start r) (ready r) (incoming r))
    (hfed : ∀ r < rounds, ∃ received, (incoming r = fun i => some (received i)) ∧
      (T.everyPlan weak course P Q).Fed T (ready r) (start (r + 1)) received)
    {i : Fin K} {cover : Until.Cover C} {seeds : Packet C}
    (hbegins : Search.Begins (T.ctx i) cover seeds (start 0 i)) {r : Nat} (hr : r ≤ rounds) :
    (∃ m, Until.Reached (T.ctx i) course cover seeds (fun r => incoming r i) (.working r) m ∧
        m.search = start r i) ∧
      ∃ m, Until.Reached (T.ctx i) course cover seeds (fun r => incoming r i) (.working r) m ∧
        m.search = ready r i := by
  have hready {r : Nat} (hr : r ≤ rounds) {m : Until.Moment C}
      (hm : Until.Reached (T.ctx i) course cover seeds (fun r => incoming r i) (.working r) m)
      (hs : m.search = start r i) :
      ∃ m, Until.Reached (T.ctx i) course cover seeds (fun r => incoming r i) (.working r) m ∧
        m.search = ready r i := by
    obtain ⟨turns, _, hdrains⟩ := (hturn r hr).drains i
    exact hm.of_drains hs hdrains
  induction r with
  | zero =>
    obtain ⟨m, hm, hs⟩ := Until.Reached.of_begins course (fun r => incoming r i) hbegins
    exact ⟨⟨m, hm, hs⟩, hready hr hm hs⟩
  | succ r ih =>
    obtain ⟨_, m, hm, hs⟩ := ih (Nat.le_of_succ_le hr)
    obtain ⟨received, hreceived, hnext⟩ := hfed r hr
    have hstack : m.search.work.stack = [] := hs ▸ ((hturn r (Nat.le_of_succ_le hr)).drained i).stack_eq
    obtain ⟨m', hm', hs'⟩ := hm.of_feed hstack (congrFun hreceived i) (hs ▸ hnext.feed_eq i)
    exact ⟨⟨m', hm', hs'⟩, hready hr hm' hs'⟩

end Team

namespace Checker

/-- The crew of a search for every path, moment by moment. -/
structure Traced {C : Type} (c : Checker C) (R : Reading c.algebra) (partitions : List Partition)
    (ctx : Fin c.config.partitions → Context C) (course : Course) (path : Nat → StateMap C)
    (seeds : Fin c.config.partitions → Packet C) (cover : Fin c.config.partitions → Until.Cover C)
    (crew : List (Worker C (StateMap C))) : Prop where
  /-- The searches of the workers are moments in each turn, with what the rounds bring to them. -/
  reached : ∃ rounds start ready, ∃ incoming : Nat → Fin c.config.partitions → Incoming C,
    Crew.Settles c.unframed.medium R ctx (fun i => Until.everyRule (ctx i) course) crew rounds start ready ∧
      (∀ r ≤ rounds, c.unframed.medium.round false
          (List.ofFn fun i => some (ready r i).staging.outgoing) = List.ofFn fun i => .ok (incoming r i)) ∧
      ∀ i, Until.Receivable R (fun r => incoming r i) ∧ ∀ r ≤ rounds,
        (∃ m, Until.Reached (ctx i) course (cover i) (seeds i) (fun r => incoming r i) (.working r) m ∧
          m.search = start r i) ∧
        ∃ m, Until.Reached (ctx i) course (cover i) (seeds i) (fun r => incoming r i) (.working r) m ∧
          m.search = ready r i
  /-- Over frames the crew does the same, unless something does not fit them. -/
  framed : ∀ rounds, Crew.after c.medium rounds crew = Crew.after c.unframed.medium rounds crew ∨
    c.Frames ∧ ¬c.FramesFit R partitions ∧ ∃ w ∈ Crew.after c.medium rounds crew,
      ∃ cause, w = .fail (.error (.channel cause)) ∧ cause.OfWire
  /-- Whatever values of the domain a worker receives, all its moments are consistent. -/
  consistent : ∀ i incoming, Until.Receivable R incoming → ∀ place m,
    Until.Reached (ctx i) course (cover i) (seeds i) incoming place m →
      m.Consistent (ctx i) R course (path i)

/-- The workers of a team go from moment to moment, each with its parts of the two maps. -/
theorem traced_of_team {C : Type} {c : Checker C} {R : Reading c.algebra} {S : Nat → Kripke}
    {partitions : List Partition} {T : Team R c.model S c.config.partitions}
    (howner : T.owner = c.config.owner c.model.stateCount)
    (hcodes : c.algebra.Codes R.InDomain ∨ c.algebra.Garbles R.InDomain) (hcount : 0 < c.config.partitions)
    (hall : Partition.all c.config.strategy c.config.partitions c.model.stateCount = .ok partitions)
    {P Q : Nat → Set Nat} {path reach : Nat → StateMap C} (hpath : T.Shows P fun i => path i)
    (hreach : T.Shows Q fun i => reach i) {weak : Bool} {course : Course}
    {seeds : Fin c.config.partitions → Packet C} {states : Fin c.config.partitions → List Nat}
    (hseeds : ∀ i, Shuffles (Until.seeds (T.ctx i) weak course (path i) (reach i)) (seeds i))
    (hstates : ∀ i : Fin c.config.partitions, Shuffles (path i).states (states i)) :
    ∃ cover : Fin c.config.partitions → Until.Cover C,
      (∀ i, Until.Cover.ofStates (T.ctx i) course (path i) (states i) = .ok (cover i)) ∧
      c.Traced R partitions (fun i => T.ctx i) course path seeds cover (List.ofFn fun i =>
        Search.fixedPoint (T.ctx i) (Until.everyRule (T.ctx i) course) (cover i) (seeds i)) := by
  have hgathered (i : Fin c.config.partitions) :=
    Until.gathered_of_shuffles (T.ready i) (hpath i) (hreach i) (hseeds i)
  choose cover hcover htracks using fun i =>
    Until.Cover.ofStates_spec course (T.ready i) (hpath i) (hstates i)
  obtain ⟨rounds, hrounds, start, ready, hsettling, hbegins⟩ :=
    T.everyPath_begins hpath hgathered htracks
  obtain ⟨incoming, hturn, hfed, hafter⟩ := hsettling.exists_incoming
  have hheld : Crew.Held (T.Round .tell) c.unframed.medium := held_unframed howner hcount hall
  refine ⟨cover, hcover, ⟨rounds, start, ready, incoming, ?_, ?_, ?_⟩, ?_, ?_⟩
  · rw [funext fun i => (hbegins i).fixedPoint_eq _]
    exact hsettling.settles hheld hrounds
  · exact fun r hr => hheld _ _ (hturn r hr).round
  · refine fun i => ⟨?_, fun r hr => Team.everyPlan_reached hturn hfed (hbegins i) hr⟩
    intro r received (hreceived : incoming r i = some received) t a hmem
    rcases Nat.lt_or_ge rounds r with hlt | hle
    · rw [hafter r hlt] at hreceived
      cases hreceived
    · have hentry := (hturn r hle).received.entry (i := i) (s := t) (a := a)
      rw [hreceived] at hentry
      exact (hentry hmem).2.1
  · exact (roundsEnd_of_settling howner hcodes hcount hall hsettling hrounds hbegins).framed
  · intro i incoming hincoming place m hm
    exact (hm.consistent (T.ready i) (htracks i)
      (fun t a hmem => ⟨(hgathered i).within hmem, (hgathered i).inDomain hmem⟩) hincoming).1

variable {domain : Domain} {b : ExplicitModel.Builder domain.Value} {M : ExplicitModel domain.Value}
  {config : Config} {partitions : List Partition} {path reach : Nat → StateMap domain.Value}

/-- In a search for every path, the coverages, the states noted for their targets, the result and the
work-set fit each other between any two steps, whatever the maps and the division of the states, and in
whatever order the workers go through the seeds and through the states of the path. -/
theorem everyPath_moments_consistent (hbuild : b.build = .ok M)
    (hbounds : ∀ e ∈ M.edges, domain.reading.InDomain e.bound) (hcount : 0 < config.partitions)
    (hall : Partition.all config.strategy config.partitions M.stateCount = .ok partitions)
    (hpath : ∀ p ∈ partitions, p.Part domain.reading (path p.id))
    (hreach : ∀ p ∈ partitions, p.Part domain.reading (reach p.id)) (weak : Bool) (course : Course) :
    ∃ ctx : Fin config.partitions → Context domain.Value,
      (∀ i : Fin config.partitions, Context.make domain.algebra (M.toModel domain.algebra)
        (Partition.nth config.strategy config.partitions M.stateCount i) = .ok (ctx i)) ∧
      (∃ seeds cover, (∀ i, Until.seeds (ctx i) weak course (path i) (reach i) = .ok (seeds i)) ∧
        (∀ i, Until.Cover.ofPath (ctx i) course (path i) = .ok (cover i)) ∧
        (domain.checker M config).Traced domain.reading partitions ctx course path seeds cover
          (partitions.map ((domain.checker M config).untilWorker .all weak course path reach))) ∧
      ∀ (seeds : Fin config.partitions → Packet domain.Value) (states : Fin config.partitions → List Nat),
        (∀ i, Shuffles (Until.seeds (ctx i) weak course (path i) (reach i)) (seeds i)) →
        (∀ i : Fin config.partitions, Shuffles (path i).states (states i)) →
        ∃ cover : Fin config.partitions → Until.Cover domain.Value,
          (∀ i, Until.Cover.ofStates (ctx i) course (path i) (states i) = .ok (cover i)) ∧
          (domain.checker M config).Traced domain.reading partitions ctx course path seeds cover
            (List.ofFn fun i =>
              Search.fixedPoint (ctx i) (Until.everyRule (ctx i) course) (cover i) (seeds i)) := by
  have hserves := (ExplicitModel.proper_of_build hbuild).serves (R := domain.reading) hbounds
  obtain ⟨T, howner, hmake, hpath, hreach⟩ :=
    exists_team_of_parts (domain.checker M config) hserves hcount hall hpath hreach
  refine ⟨fun i => T.ctx i, hmake, ?_, fun seeds states hseeds hstates =>
    traced_of_team howner domain.codes_or_garbles hcount hall hpath hreach hseeds hstates⟩
  choose seeds hseeds _ using fun i => Until.seeds_spec (T.ready i) weak course (hpath i) (hreach i)
  choose states hstates _ using fun i => (hpath i).states_spec (T.ready i).stateCount_le
  obtain ⟨cover, hcover, htraced⟩ := traced_of_team howner domain.codes_or_garbles hcount hall hpath hreach
    (fun i => Shuffles.of_ok (hseeds i)) fun i => Shuffles.of_ok (hstates i)
  have hcoverPath (i : Fin config.partitions) := Until.Cover.ofPath_eq (hstates i) (hcover i)
  refine ⟨seeds, cover, hseeds, hcoverPath, ?_⟩
  rw [map_untilWorker_all hall hmake hseeds hcoverPath]
  exact htraced

/-- Two states with a worker each, two steps there and one back: the first state is noted once for the
second, though two of its transitions lead there, and the workers are told values of each other's state. -/
theorem everyPath_moments_consistent_parallel : ∃ (M : ExplicitModel ColorSet) (partitions : List Partition),
    ExplicitModel.Builder.build ⟨2,
        #[⟨0, 1, .move "x" .up, .full 3⟩, ⟨0, 1, .move "y" .up, .full 1⟩,
          ⟨1, 0, .move "x" .down, .full 1⟩], [], none⟩ = .ok M ∧
      (∀ e ∈ M.edges, e.bound.InDomain 3) ∧
      Partition.all .hash 2 M.stateCount = .ok partitions ∧
      (∀ p ∈ partitions, p.Part (Reading.explicit 3) (.single p.id (.full 3) 2)) ∧
      (∀ p ∈ partitions, p.Part (Reading.explicit 3)
        (if p.id = 0 then .empty 2 else .single 1 (.full 3) 2)) ∧
      ∃ ctx : Fin 2 → Context ColorSet,
        (∀ i : Fin 2, Context.make (.explicit 3) (M.toModel (.explicit 3))
          (Partition.nth .hash 2 M.stateCount i) = .ok (ctx i)) ∧
        ∃ seeds cover, (∀ i : Fin 2, Until.seeds (ctx i) true {} (.single i (.full 3) 2)
            (if i.val = 0 then .empty 2 else .single 1 (.full 3) 2) = .ok (seeds i)) ∧
          (∀ i : Fin 2, Until.Cover.ofPath (ctx i) {} (.single i (.full 3) 2) = .ok (cover i)) ∧
          Traced ⟨.explicit 3, M.toModel (.explicit 3),
              { partitions := 2, strategy := .hash, transport := .serialized }⟩ (Reading.explicit 3)
            partitions ctx {} (fun i => .single i (.full 3) 2) seeds cover
            (partitions.map (untilWorker ⟨.explicit 3, M.toModel (.explicit 3),
                { partitions := 2, strategy := .hash, transport := .serialized }⟩ .all true {}
              (fun i => .single i (.full 3) 2) fun i => if i = 0 then .empty 2 else .single 1 (.full 3) 2)) := by
  have hone : (ColorSet.full 1).InDomain 3 := ColorSet.inDomain_full_of_le rfl (by decide)
  have hbounds : ∀ e ∈ [(⟨0, 1, .move "x" .up, .full 3⟩ : Edge ColorSet), ⟨0, 1, .move "y" .up, .full 1⟩,
      ⟨1, 0, .move "x" .down, .full 1⟩], e.bound.InDomain 3 := by
    simp [ColorSet.inDomain_full, hone]
  obtain ⟨ctx, hmake, htraced, _⟩ := @everyPath_moments_consistent (.explicit 3) ⟨2,
      #[⟨0, 1, .move "x" .up, .full 3⟩, ⟨0, 1, .move "y" .up, .full 1⟩,
        ⟨1, 0, .move "x" .down, .full 1⟩], [], none⟩ _
      { partitions := 2, strategy := .hash, transport := .serialized } _ (fun i => .single i (.full 3) 2)
      (fun i => if i = 0 then .empty 2 else .single 1 (.full 3) 2) rfl hbounds (by decide) rfl
      part_each_of_two part_second_of_two true {}
  exact ⟨_, _, rfl, hbounds, rfl, part_each_of_two, part_second_of_two, ctx, hmake, htraced⟩

end Checker

end ColoredCtl

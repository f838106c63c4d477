import ColoredCtl.Proofs.Until

/-!
Fixed points come to an end.

The workers of a fixed point take turns: each handles the states that wait, and then all exchange what they
have staged. There are finitely many colors that the result of a worker can still gain, and all that a
worker does is paid for by one of them: a state waits because its value has grown, and something is staged
because a state waited. So the loop over the waiting states ends in each turn, and after a number of turns
nothing is left to exchange, for all workers in the same round.
-/

namespace ColoredCtl

open Color

variable {C σ : Type} {A : Algebra C} {R : Reading A} {K : Nat}

/-- No state waits, and nothing is staged. -/
structure Search.Idle (s : Search C σ) : Prop where
  stack_eq : s.work.stack = []
  queued_eq : ∀ t, s.work.queued.contains t = false
  staged_empty : ∀ acc, some acc ∈ s.staging.maps → acc.isEmpty = true

namespace Crew

/-- The crew of a fixed point, turn by turn: the searches of the workers when a turn starts, and when they
are ready for its round. -/
structure Settles (medium : Medium C) (R : Reading A) (ctx : Fin K → Context C) (rule : Fin K → Rule C σ)
    (crew : List (Worker C (StateMap C))) (rounds : Nat) (start ready : Nat → Fin K → Search C σ) :
    Prop where
  /-- What is left to do for the workers, after a number of rounds. -/
  after_eq : ∀ r ≤ rounds, after medium r crew =
    List.ofFn fun i => Search.saturate (ctx i) (rule i) (Search.roundFuel (ctx i) - r) (start r i)
  /-- The loop over the states that wait ends, for all workers in all turns. -/
  drains : ∀ r ≤ rounds, ∀ i, ∃ turns ≤ Search.drainFuel (ctx i),
    Search.Drains (rule i) turns (start r i) (ready r i)
  /-- A round before the last brings something to all workers, and they take it into account. -/
  receives : ∀ r < rounds, ∃ received : Fin K → Packet C,
    medium.round false (List.ofFn fun i => some (ready r i).staging.outgoing) =
        List.ofFn (fun i => .ok (some (received i))) ∧
      ∀ i, Search.feed (rule i).receive { ready r i with staging := (ready r i).staging.clear }
        (received i) = .ok (start (r + 1) i)
  /-- The last round brings nothing to any worker, and all are done. -/
  ends : medium.round false (List.ofFn fun i => some (ready rounds i).staging.outgoing) =
    List.ofFn fun _ : Fin K => .ok none
  done_eq : after medium (rounds + 1) crew = List.ofFn fun i => .done (ready rounds i).result.freeze
  idle : ∀ i, (ready rounds i).Idle
  /-- When something is sent, some result has grown since the round before. -/
  grows : ∀ r < rounds, (∃ i packet, some packet ∈ (ready (r + 1) i).staging.outgoing) →
    (∀ i t, (ready r i).result.colorsAt R t ⊆ (ready (r + 1) i).result.colorsAt R t) ∧
      ∃ i t, (ready r i).result.colorsAt R t ⊂ (ready (r + 1) i).result.colorsAt R t

end Crew

namespace Plan

variable {M : Model C} {S : Nat → Kripke} {T : Team R M S K} {plan : Plan C σ K}

theorem Turn.idle {s d : Fin K → Search C σ} {incoming : Fin K → Incoming C}
    (h : plan.Turn T s d incoming) (hempty : ∀ i j u, (d i).staging.colorsFor R j u = ∅) (i : Fin K) :
    (d i).Idle := by
  have hfits := (h.drained i).good.fits
  have hstack := (h.drained i).stack_eq
  refine ⟨hstack, ?_, ?_⟩
  · intro t
    rw [← Bool.not_eq_true, hfits.queued_iff, hstack]
    exact List.not_mem_nil
  · intro acc hacc
    exact hfits.staging_fits.isEmpty_of_colorsFor (hempty i) hacc

/-- A worker that has staged something has got a color since the turn before. -/
theorem Turn.exists_ssubset {s s' d d' : Fin K → Search C σ} {incoming incoming' : Fin K → Incoming C}
    {received : Fin K → Packet C} (h : plan.Turn T s d incoming) (hfed : plan.Fed T d s' received)
    (h' : plan.Turn T s' d' incoming') (hs' : plan.Between T s') {i : Fin K} {j u : Nat}
    (hstaged : ((d' i).staging.colorsFor R j u).Nonempty) :
    ∃ t, (d i).result.colorsAt R t ⊂ (d' i).result.colorsAt R t := by
  obtain ⟨t, ht⟩ := (hfed.ext i).exists_ssubset (h.drained i).stack_eq (h'.exists_waiting hs' hstaged)
  exact ⟨t, ht.trans_subset ((h'.drained i).grows t)⟩

namespace Settling

variable {rounds : Nat} {start ready : Nat → Fin K → Search C σ} {medium : Medium C}

/-- A turn of the whole crew that is followed by others. -/
theorem next_eq (h : plan.Settling T rounds start ready) (hheld : Crew.Held (T.Round plan.purpose) medium)
    {r : Nat} (hr : r < rounds) (fuel : Nat) :
    Crew.next medium
        (List.ofFn fun i => Search.saturate (T.ctx i) (plan.rule i) (fuel + 1) (start r i)) =
      List.ofFn fun i => Search.saturate (T.ctx i) (plan.rule i) fuel (start (r + 1) i) := by
  obtain ⟨received, hturn, hfed⟩ := h.turn r hr
  choose resume hmeet _ hnext using fun i => saturate_of_drains (hturn.drains i) fuel
  rw [Crew.next_of_round (fun i => by rw [hmeet i]; rfl) (hheld _ _ hturn.round)]
  refine congrArg List.ofFn (funext fun i => ?_)
  rw [hmeet i, ← hnext i (hfed.feed_eq i)]
  rfl

/-- The last turn of the whole crew. -/
theorem next_last (h : plan.Settling T rounds start ready)
    (hheld : Crew.Held (T.Round plan.purpose) medium) (fuel : Nat) :
    Crew.next medium
        (List.ofFn fun i => Search.saturate (T.ctx i) (plan.rule i) (fuel + 1) (start rounds i)) =
      List.ofFn fun i => .done (ready rounds i).result.freeze := by
  choose resume hmeet hdone _ using fun i => saturate_of_drains (h.last.drains i) fuel
  rw [Crew.next_of_round (fun i => by rw [hmeet i]; rfl) (hheld _ _ h.last.round)]
  refine congrArg List.ofFn (funext fun i => ?_)
  rw [hmeet i, ← hdone i]
  rfl

theorem after_eq (h : plan.Settling T rounds start ready)
    (hheld : Crew.Held (T.Round plan.purpose) medium) {fuel : Nat} (hfuel : rounds < fuel) {r : Nat}
    (hr : r ≤ rounds) :
    Crew.after medium r
        (List.ofFn fun i => Search.saturate (T.ctx i) (plan.rule i) fuel (start 0 i)) =
      List.ofFn fun i => Search.saturate (T.ctx i) (plan.rule i) (fuel - r) (start r i) := by
  induction r with
  | zero => rfl
  | succ r ih =>
    obtain ⟨left, hleft⟩ : ∃ left, fuel - r = left + 1 := Nat.exists_eq_succ_of_ne_zero (by omega)
    have hrest : fuel - (r + 1) = left := by omega
    rw [Crew.after_succ_eq_next, ih (by omega), hleft, h.next_eq hheld hr, hrest]

/-- All turns of the crew, up to the round that brings nothing to anybody. -/
theorem settles (h : plan.Settling T rounds start ready)
    (hheld : Crew.Held (T.Round plan.purpose) medium) (hrounds : rounds < M.stateCount * A.height + 2) :
    Crew.Settles medium R (fun i => T.ctx i) plan.rule
      (List.ofFn fun i => Search.saturate (T.ctx i) (plan.rule i) (M.stateCount * A.height + 2) (start 0 i))
      rounds start ready where
  after_eq r hr := h.after_eq hheld hrounds hr
  drains r hr i := by
    rcases Nat.lt_or_eq_of_le hr with hlt | rfl
    · obtain ⟨received, hturn, _⟩ := h.turn r hlt
      exact hturn.drains i
    · exact h.last.drains i
  receives r hr := by
    obtain ⟨received, hturn, hfed⟩ := h.turn r hr
    exact ⟨received, hheld _ _ hturn.round, hfed.feed_eq⟩
  ends := hheld _ _ h.last.round
  done_eq := by
    obtain ⟨left, hleft⟩ : ∃ left, M.stateCount * A.height + 2 - rounds = left + 1 :=
      Nat.exists_eq_succ_of_ne_zero (by omega)
    rw [Crew.after_succ_eq_next, h.after_eq hheld hrounds (Nat.le_refl _), hleft, h.next_last hheld]
  idle := h.last.idle h.unstaged
  grows r hr hsent := by
    obtain ⟨received, hturn, hfed⟩ := h.turn r hr
    obtain ⟨incoming, hnext⟩ : ∃ incoming, plan.Turn T (start (r + 1)) (ready (r + 1)) incoming := by
      rcases Nat.lt_or_eq_of_le hr with hlt | heq
      · obtain ⟨received', hturn', _⟩ := h.turn (r + 1) hlt
        exact ⟨_, hturn'⟩
      · exact ⟨_, heq ▸ h.last⟩
    refine ⟨fun i t => ((hfed.ext i).grows t).trans ((hnext.drained i).grows t), ?_⟩
    obtain ⟨_, hempty⟩ | ⟨_, _, i, j, u, hstaged⟩ := hnext.incoming_cases
    · obtain ⟨i, packet, hpacket⟩ := hsent
      exact absurd hpacket (Staging.not_mem_outgoing (hnext.idle hempty i).staged_empty packet)
    · obtain ⟨t, ht⟩ := hturn.exists_ssubset hfed hnext (h.between (r + 1) hr) hstaged
      exact ⟨i, t, ht⟩

end Settling

end Plan

namespace Checker

/-- The crew of a fixed point comes to an end. Over frames it does the same as without them, unless
something does not fit them and cannot be written or read. -/
structure RoundsEnd (c : Checker C) (R : Reading c.algebra) (partitions : List Partition)
    (ctx : Fin c.config.partitions → Context C) (rule : Fin c.config.partitions → Rule C σ)
    (crew : List (Worker C (StateMap C))) : Prop where
  settles : ∃ rounds start ready, Crew.Settles c.unframed.medium R ctx rule crew rounds start ready
  framed : ∀ rounds, Crew.after c.medium rounds crew = Crew.after c.unframed.medium rounds crew ∨
    c.Frames ∧ ¬c.FramesFit R partitions ∧ ∃ w ∈ Crew.after c.medium rounds crew,
      ∃ cause, w = .fail (.error (.channel cause)) ∧ cause.OfWire

section Workers

variable {c : Checker C} {partitions : List Partition} {ctx : Fin c.config.partitions → Context C}
  (hall : Partition.all c.config.strategy c.config.partitions c.model.stateCount = .ok partitions)
  (hmake : ∀ i : Fin c.config.partitions, Context.make c.algebra c.model
    (Partition.nth c.config.strategy c.config.partitions c.model.stateCount i) = .ok (ctx i))
  {weak : Bool} {course : Course} {path reach : Nat → StateMap C}
  {seeds : Fin c.config.partitions → Packet C}
  (hseeds : ∀ i, Until.seeds (ctx i) weak course (path i) (reach i) = .ok (seeds i))

include hall hmake hseeds

/-- The workers that search for some path go through the seeds in the order in which these are listed. -/
theorem map_untilWorker_some : partitions.map (c.untilWorker .some weak course path reach) =
    List.ofFn fun i =>
      Search.fixedPoint (ctx i) (Until.someRule (ctx i) course (path i)) () (seeds i) := by
  rw [Partition.map_eq_ofFn hall]
  refine congrArg List.ofFn (funext fun i => ?_)
  rw [untilWorker, hmake i]
  exact Until.somePath_eq_fixedPoint (hseeds i)

/-- So do those that search for every path, and note the states of the path as these are listed. -/
theorem map_untilWorker_all {cover : Fin c.config.partitions → Until.Cover C}
    (hcover : ∀ i, Until.Cover.ofPath (ctx i) course (path i) = .ok (cover i)) :
    partitions.map (c.untilWorker .all weak course path reach) = List.ofFn fun i =>
      Search.fixedPoint (ctx i) (Until.everyRule (ctx i) course) (cover i) (seeds i) := by
  rw [Partition.map_eq_ofFn hall]
  refine congrArg List.ofFn (funext fun i => ?_)
  rw [untilWorker, hmake i]
  exact Until.everyPath_eq_fixedPoint (hseeds i) (hcover i)

end Workers

section Orders

variable {c : Checker C} {R : Reading c.algebra} {S : Nat → Kripke} {partitions : List Partition}
  {T : Team R c.model S c.config.partitions} (howner : T.owner = c.config.owner c.model.stateCount)
  (hcodes : c.algebra.Codes R.InDomain ∨ c.algebra.Garbles R.InDomain) (hcount : 0 < c.config.partitions)
  (hall : Partition.all c.config.strategy c.config.partitions c.model.stateCount = .ok partitions)

include howner hcodes hcount hall

/-- Fixed points that settle come to an end, from their seeds on. -/
theorem roundsEnd_of_settling {plan : Plan C σ c.config.partitions} {rounds : Nat}
    {start ready : Nat → Fin c.config.partitions → Search C σ}
    (hsettling : plan.Settling T rounds start ready)
    (hrounds : rounds < c.model.stateCount * c.algebra.height + 2) {memory : Fin c.config.partitions → σ}
    {seeds : Fin c.config.partitions → Packet C}
    (hbegins : ∀ i, Search.Begins (T.ctx i) (memory i) (seeds i) (start 0 i)) :
    c.RoundsEnd R partitions (fun i => T.ctx i) plan.rule
      (List.ofFn fun i => Search.fixedPoint (T.ctx i) (plan.rule i) (memory i) (seeds i)) := by
  have hunframed : Crew.Held (T.Round plan.purpose) c.unframed.medium := held_unframed howner hcount hall
  refine ⟨⟨rounds, start, ready, ?_⟩, fun rounds' => ?_⟩
  · rw [funext fun i => (hbegins i).fixedPoint_eq (plan.rule i)]
    exact hsettling.settles hunframed hrounds
  obtain ⟨w, _, hheld, hattempted⟩ := (hsettling.fixedPoint_yields hrounds hbegins).after_spec rounds'
  rw [hheld _ hunframed]
  by_cases hfit : c.Frames → c.FramesFit R partitions
  · exact .inl (hheld _ (held_of_fit howner hcount hall hfit))
  · obtain ⟨hframes, hnot⟩ := Classical.not_imp.1 hfit
    refine (hattempted _ (attempted howner hcodes)).imp_right ?_
    rintro ⟨broken, hafter, hbroken⟩
    obtain ⟨i, cause, hcause, hwire⟩ := hbroken.blame
    exact ⟨hframes, hnot, broken i, hafter ▸ List.mem_ofFn.2 ⟨i, rfl⟩, cause, hcause, hwire⟩

variable {P Q : Nat → Set Nat} {path reach : Nat → StateMap C} (hpath : T.Shows P fun i => path i)
  (hreach : T.Shows Q fun i => reach i) {weak : Bool} {course : Course}
  {seeds : Fin c.config.partitions → Packet C}
  (hseeds : ∀ i, Shuffles (Until.seeds (T.ctx i) weak course (path i) (reach i)) (seeds i))

include hpath hreach hseeds

theorem somePath_roundsEnd : c.RoundsEnd R partitions (fun i => T.ctx i)
    (fun i => Until.someRule (T.ctx i) course (path i)) (List.ofFn fun i =>
      Search.fixedPoint (T.ctx i) (Until.someRule (T.ctx i) course (path i)) () (seeds i)) := by
  obtain ⟨rounds, hrounds, start, ready, hsettling, hbegins⟩ := T.somePath_begins hpath fun i =>
    Until.gathered_of_shuffles (T.ready i) (hpath i) (hreach i) (hseeds i)
  exact roundsEnd_of_settling howner hcodes hcount hall hsettling hrounds hbegins

theorem everyPath_roundsEnd {states : Fin c.config.partitions → List Nat}
    (hstates : ∀ i : Fin c.config.partitions, Shuffles (path i).states (states i)) :
    ∃ cover : Fin c.config.partitions → Until.Cover C,
      (∀ i, Until.Cover.ofStates (T.ctx i) course (path i) (states i) = .ok (cover i)) ∧
      c.RoundsEnd R partitions (fun i => T.ctx i) (fun i => Until.everyRule (T.ctx i) course)
        (List.ofFn fun i =>
          Search.fixedPoint (T.ctx i) (Until.everyRule (T.ctx i) course) (cover i) (seeds i)) := by
  choose cover hcover htracks using fun i =>
    Until.Cover.ofStates_spec course (T.ready i) (hpath i) (hstates i)
  obtain ⟨rounds, hrounds, start, ready, hsettling, hbegins⟩ := T.everyPath_begins hpath
    (fun i => Until.gathered_of_shuffles (T.ready i) (hpath i) (hreach i) (hseeds i)) htracks
  exact ⟨cover, hcover, roundsEnd_of_settling howner hcodes hcount hall hsettling hrounds hbegins⟩

end Orders

variable {domain : Domain} {b : ExplicitModel.Builder domain.Value} {M : ExplicitModel domain.Value}
  {config : Config} {partitions : List Partition} {path reach : Nat → StateMap domain.Value}

/-- The fixed points for until on some path and on every path come to an end, whatever the maps and the
division of the states, and in whatever order the workers go through the seeds and through the states of
the path. -/
theorem until_rounds_end (hbuild : b.build = .ok M)
    (hbounds : ∀ e ∈ M.edges, domain.reading.InDomain e.bound) (hcount : 0 < config.partitions)
    (hall : Partition.all config.strategy config.partitions M.stateCount = .ok partitions)
    (hpath : ∀ p ∈ partitions, p.Part domain.reading (path p.id))
    (hreach : ∀ p ∈ partitions, p.Part domain.reading (reach p.id)) (weak : Bool) (course : Course) :
    ∃ ctx : Fin config.partitions → Context domain.Value,
      (∀ i : Fin config.partitions, Context.make domain.algebra (M.toModel domain.algebra)
        (Partition.nth config.strategy config.partitions M.stateCount i) = .ok (ctx i)) ∧
      (domain.checker M config).RoundsEnd domain.reading partitions ctx
        (fun i => Until.someRule (ctx i) course (path i))
        (partitions.map ((domain.checker M config).untilWorker .some weak course path reach)) ∧
      (domain.checker M config).RoundsEnd domain.reading partitions ctx
        (fun i => Until.everyRule (ctx i) course)
        (partitions.map ((domain.checker M config).untilWorker .all weak course path reach)) ∧
      ∀ (seeds : Fin config.partitions → Packet domain.Value) (states : Fin config.partitions → List Nat),
        (∀ i, Shuffles (Until.seeds (ctx i) weak course (path i) (reach i)) (seeds i)) →
        (∀ i : Fin config.partitions, Shuffles (path i).states (states i)) →
        (domain.checker M config).RoundsEnd domain.reading partitions ctx
          (fun i => Until.someRule (ctx i) course (path i)) (List.ofFn fun i =>
            Search.fixedPoint (ctx i) (Until.someRule (ctx i) course (path i)) () (seeds i)) ∧
        ∃ cover : Fin config.partitions → Until.Cover domain.Value,
          (∀ i, Until.Cover.ofStates (ctx i) course (path i) (states i) = .ok (cover i)) ∧
          (domain.checker M config).RoundsEnd domain.reading partitions ctx
            (fun i => Until.everyRule (ctx i) course) (List.ofFn fun i =>
              Search.fixedPoint (ctx i) (Until.everyRule (ctx i) course) (cover i) (seeds i)) := by
  have hserves := (ExplicitModel.proper_of_build hbuild).serves (R := domain.reading) hbounds
  obtain ⟨T, howner, hmake, hpath, hreach⟩ :=
    exists_team_of_parts (domain.checker M config) hserves hcount hall hpath hreach
  choose seeds hseeds _ using fun i => Until.seeds_spec (T.ready i) weak course (hpath i) (hreach i)
  choose states hstates _ using fun i => (hpath i).states_spec (T.ready i).stateCount_le
  have hlisted (i : Fin config.partitions) := Shuffles.of_ok (hseeds i)
  refine ⟨fun i => T.ctx i, hmake, ?_, ?_, fun seeds states hseeds hstates => ⟨?_, ?_⟩⟩
  · rw [map_untilWorker_some hall hmake hseeds]
    exact somePath_roundsEnd howner domain.codes_or_garbles hcount hall hpath hreach hlisted
  · obtain ⟨cover, hcover, hends⟩ := everyPath_roundsEnd howner domain.codes_or_garbles hcount hall hpath
      hreach hlisted fun i => Shuffles.of_ok (hstates i)
    rw [map_untilWorker_all hall hmake hseeds fun i => Until.Cover.ofPath_eq (hstates i) (hcover i)]
    exact hends
  · exact somePath_roundsEnd howner domain.codes_or_garbles hcount hall hpath hreach hseeds
  · exact everyPath_roundsEnd howner domain.codes_or_garbles hcount hall hpath hreach hseeds hstates

/-- Two states with a step there for all colors and a step back for one of them, each with a worker of its
own: values go there and back. -/
theorem until_rounds_end_return : ∃ (M : ExplicitModel ColorSet) (partitions : List Partition),
    ExplicitModel.Builder.build ⟨2,
        #[⟨0, 1, .move "x" .up, .full 3⟩, ⟨1, 0, .move "x" .down, .full 1⟩], [], none⟩ = .ok M ∧
      (∀ e ∈ M.edges, e.bound.InDomain 3) ∧
      Partition.all .hash 2 M.stateCount = .ok partitions ∧
      (∀ p ∈ partitions, p.Part (Reading.explicit 3) (.single p.id (.full 3) 2)) ∧
      (∀ p ∈ partitions, p.Part (Reading.explicit 3)
        (if p.id = 0 then .empty 2 else .single 1 (.full 3) 2)) ∧
      ∃ ctx : Fin 2 → Context ColorSet,
        (∀ i : Fin 2, Context.make (.explicit 3) (M.toModel (.explicit 3))
          (Partition.nth .hash 2 M.stateCount i) = .ok (ctx i)) ∧
        RoundsEnd ⟨.explicit 3, M.toModel (.explicit 3),
            { partitions := 2, strategy := .hash, transport := .serialized }⟩ (Reading.explicit 3) partitions
          ctx (fun i => Until.someRule (ctx i) {} (.single i (.full 3) 2))
          (partitions.map (untilWorker ⟨.explicit 3, M.toModel (.explicit 3),
              { partitions := 2, strategy := .hash, transport := .serialized }⟩ .some true {}
            (fun i => .single i (.full 3) 2) fun i => if i = 0 then .empty 2 else .single 1 (.full 3) 2)) ∧
        RoundsEnd ⟨.explicit 3, M.toModel (.explicit 3),
            { partitions := 2, strategy := .hash, transport := .serialized }⟩ (Reading.explicit 3) partitions
          ctx (fun i => Until.everyRule (ctx i) {})
          (partitions.map (untilWorker ⟨.explicit 3, M.toModel (.explicit 3),
              { partitions := 2, strategy := .hash, transport := .serialized }⟩ .all true {}
            (fun i => .single i (.full 3) 2) fun i => if i = 0 then .empty 2 else .single 1 (.full 3) 2)) := by
  obtain ⟨ctx, hmake, hsome, hevery, _⟩ := @until_rounds_end (.explicit 3) ⟨2,
      #[⟨0, 1, .move "x" .up, .full 3⟩, ⟨1, 0, .move "x" .down, .full 1⟩], [], none⟩ _
      { partitions := 2, strategy := .hash, transport := .serialized } _ (fun i => .single i (.full 3) 2)
      (fun i => if i = 0 then .empty 2 else .single 1 (.full 3) 2) rfl inDomain_there_and_back (by decide) rfl
      part_each_of_two part_second_of_two true {}
  exact ⟨_, _, rfl, inDomain_there_and_back, rfl, part_each_of_two, part_second_of_two, ctx, hmake, hsome,
    hevery⟩

end Checker

end ColoredCtl

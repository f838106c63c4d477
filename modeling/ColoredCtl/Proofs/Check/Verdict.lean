import ColoredCtl.Check.Checker
import ColoredCtl.Proofs.Check.Account
import ColoredCtl.Proofs.Check.Evaluation
import ColoredCtl.Proofs.State.Merge

namespace ColoredCtl

open Color

variable {C : Type} {A : Algebra C} {R : Reading A} {M : Model C} {S : Nat → Kripke}

/-- The worker of a state, in a division of the states. -/
abbrev Config.owner (config : Config) (stateCount s : Nat) : Nat :=
  (Partition.nth config.strategy config.partitions stateCount 0).owner s

/-- What the map of a worker shows: the states that it owns where the formula holds. -/
abbrev Config.Answers (config : Config) (R : Reading A) (S : Nat → Kripke) (stateCount : Nat)
    (f : Formula) (i s c : Nat) : Prop :=
  (s < stateCount ∧ config.owner stateCount s = i) ∧ c ∈ R.palette ∧ f.Holds (S c) [] s

/-- What is done for all partitions of a division, told by their numbers. -/
theorem Partition.map_eq_ofFn {strategy : Strategy} {K n : Nat} {partitions : List Partition}
    (hall : Partition.all strategy K n = .ok partitions) {α : Type} (g : Partition → α) :
    partitions.map g = List.ofFn fun i : Fin K => g (Partition.nth strategy K n i) := by
  rw [(Partition.all_eq_ok hall).1]
  refine List.ext_getElem (by simp) fun i _ _ => by simp

/-- The workers of a division of the states are a team. -/
theorem Team.exists_of_all (hserves : M.Serves R S) {strategy : Strategy} {K : Nat} (hK : 0 < K)
    {partitions : List Partition} (hall : Partition.all strategy K M.stateCount = .ok partitions) :
    ∃ T : Team R M S K, T.strategy = strategy ∧
      ∀ i : Fin K, Context.make A M (Partition.nth strategy K M.stateCount i) = .ok (T.ctx i) := by
  obtain ⟨_, hproper⟩ := Partition.all_eq_ok hall
  choose localSet hlocal hcount hmem using fun i : Fin K => (hproper i i.isLt).localSet_spec
  refine ⟨⟨strategy, localSet, hK, hserves, fun i => hproper i i.isLt, hcount, hmem⟩, rfl, ?_⟩
  intro i
  rw [Context.make, hlocal i]
  rfl

/-- The values of a formula that are not empty. -/
theorem Team.recordCheck_spec {K : Nat} (T : Team R M S K) (htable : M.stateCount ≤ Capacity.tableLimit)
    {f : Formula} (hvalid : f.validate M [] = .ok ()) :
    T.Records (fun i => (T.ctx i).recordCheck f) fun maps => ∀ i, (maps i).Tabulates R M.stateCount
      fun s c => (T.ctx i).Owns s ∧ c ∈ R.palette ∧ f.Holds (S c) [] s := by
  have hrecord : T.Shares [] (fun i => (T.ctx i).record f []) (T.Shows (f.extent S [])) :=
    T.record_spec f hvalid (Env.binds_nil [] M.stateCount)
  refine .bind hrecord.run' fun m hm => .lift (.compute fun i => ?_)
  exact (hm i).materialize_spec htable

namespace Checker

/-- The worker of a partition, which checks one formula, with a journal. -/
def recorder (c : Checker C) (f : Formula) (p : Partition) : Worker C (StateMap C × Journal C) := do
  let ctx ← Context.make c.algebra c.model p
  (ctx.recordCheck f).run {}

/-- It is the worker of the partition, and its journal has all that the worker receives. -/
theorem recorder_mirrors (c : Checker C) (f : Formula) (p : Partition) :
    (fun r => ([r.1], r.2.received)) <$> c.recorder f p = (c.worker [f] p).traced [] := by
  rw [recorder, worker, map_bind, Worker.traced_bind, (Worker.silent_compute _).traced_eq, bind_map_left]
  refine bind_congr fun ctx => ?_
  have hcheck : (fun r => (r.1, r.2.received)) <$> (ctx.recordCheck f).run {} = (ctx.check f).traced [] :=
    ctx.recordCheck_mirrors f {}
  change _ = ([f].mapM ctx.check).traced []
  rw [List.mapM_cons, Worker.traced_bind, ← hcheck, bind_map_left, map_eq_pure_bind]
  rfl

theorem map_recorder (c : Checker C) (f : Formula) (p : Partition) :
    (fun r => [r.1]) <$> c.recorder f p = c.worker [f] p := by
  rw [← Worker.map_fst_traced (c.worker [f] p) [], ← recorder_mirrors, Functor.map_map]

/-- When all workers have results there is no failure. -/
theorem firstFailure_of_ok {α : Type} (results : List α) :
    firstFailure (results.map .ok) = .ok results := by
  have hall : (results.map Except.ok).mapM (id : Except CheckError α → Except CheckError α) =
      .ok results := by
    rw [List.mapM_map]
    exact (mapM_eq_ok (g := id) fun _ _ => rfl).trans (by rw [List.map_id])
  rw [firstFailure, List.find?_eq_none.2 (by simp)]
  exact hall

/-- A worker has an error of its own. -/
def failed {α : Type} : Except CheckError α → Bool
  | .ok _ | .error (.channel .aborted) => false
  | .error _ => true

theorem failed_error {α : Type} {cause : CheckError} (hown : cause ≠ .channel .aborted) :
    failed (.error cause : Except CheckError α) = true := by
  unfold failed
  split
  · next h => cases h
  · next h => exact absurd (Except.error.inj h) hown
  · rfl

theorem firstFailure_of_find {α : Type} {outcomes : List (Except CheckError α)} {cause : CheckError}
    (hfound : outcomes.find? failed = some (.error cause)) : firstFailure outcomes = .error cause := by
  simp only [firstFailure]
  split
  · next found hother =>
    cases hother.symm.trans hfound
    rfl
  · next hnone => exact absurd hfound (hnone _)

/-- The first failure is that of the first worker with an error of its own. -/
theorem firstFailure_of_first {α : Type} {K : Nat} {outcome : Fin K → Except CheckError α} (i : Fin K)
    {cause : CheckError} (hcause : outcome i = .error cause) (hown : cause ≠ .channel .aborted)
    (hbefore : ∀ j < i, (∃ value, outcome j = .ok value) ∨ outcome j = .error (.channel .aborted)) :
    firstFailure (List.ofFn outcome) = .error cause := by
  apply firstFailure_of_find
  refine List.find?_eq_some_iff_getElem.2 ⟨failed_error hown, i, by simp, by simp [hcause], fun j hj => ?_⟩
  rw [List.getElem_ofFn]
  obtain ⟨value, hvalue⟩ | haborted := hbefore ⟨j, hj.trans i.isLt⟩ hj
  · rw [hvalue]
    rfl
  · rw [haborted]
    rfl

/-- When a worker could not write or read something, and no worker failed for another reason, this is the
failure. -/
theorem firstFailure_of_blame {α : Type} {outcomes : List (Except CheckError α)}
    (heach : ∀ outcome ∈ outcomes, (∃ value, outcome = .ok value) ∨
      ∃ cause, outcome = .error (.channel cause) ∧ (cause = .aborted ∨ cause.OfWire))
    (hblame : ∃ cause, .error (.channel cause) ∈ outcomes ∧ cause.OfWire) :
    ∃ cause, firstFailure outcomes = .error (.channel cause) ∧ cause.OfWire := by
  obtain ⟨blamed, hmem, hblamed⟩ := hblame
  have hsome : (outcomes.find? failed).isSome = true := by
    refine List.find?_isSome.2 ⟨.error (.channel blamed), hmem, failed_error ?_⟩
    rintro ⟨⟩
    exact hblamed
  obtain ⟨found, hfound⟩ := Option.isSome_iff_exists.1 hsome
  have hfailed := List.find?_some hfound
  obtain ⟨value, rfl⟩ | ⟨cause, rfl, rfl | hwire⟩ := heach _ (List.mem_of_find?_eq_some hfound)
  · cases hfailed
  · cases hfailed
  · exact ⟨cause, firstFailure_of_find hfound, hwire⟩

/-- What the workers report, told by their numbers. -/
theorem reports_ofFn {α : Type} {K : Nat} (outcome : Fin K → Attempt α) :
    ((List.ofFn outcome).zipIdx.map fun (x, id) => report id x) =
      List.ofFn fun i : Fin K => report i (outcome i) := by
  refine List.ext_getElem (by simp) fun i _ _ => ?_
  rw [List.getElem_map, List.getElem_zipIdx, List.getElem_ofFn, List.getElem_ofFn, Nat.zero_add]

/-- The workers of a check are a team that comes to the maps of the states where the formula holds. -/
theorem recorder_spec (hserves : M.Serves R S) (htable : M.stateCount ≤ Capacity.tableLimit) (config : Config)
    (hcount : 0 < config.partitions) {partitions : List Partition}
    (hall : Partition.all config.strategy config.partitions M.stateCount = .ok partitions)
    {f : Formula} (hvalid : f.validate M [] = .ok ()) :
    ∃ T : Team R M S config.partitions, T.owner = config.owner M.stateCount ∧
      T.Ends (fun i => recorder ⟨A, M, config⟩ f
        (Partition.nth config.strategy config.partitions M.stateCount i)) fun r =>
          (∀ i, (r i).1.Tabulates R M.stateCount (config.Answers R S M.stateCount f i)) ∧
          (T.Logs fun i => (r i).2) ∧ ∀ i, (r i).2.Tells M.stateCount f [] := by
  obtain ⟨T, hstrategy, hmake⟩ := Team.exists_of_all hserves hcount hall
  have howner : T.owner = config.owner M.stateCount := by
    funext s
    rw [Team.owner, hstrategy]
  refine ⟨T, howner, .bind (.compute fun i => ⟨T.ctx i, hmake i, rfl⟩) fun ctx hctx => ?_⟩
  obtain rfl : T.ctx = ctx := funext hctx
  obtain ⟨r, hyields, hmaps, hlogs⟩ := T.recordCheck_spec htable hvalid _ .empty
  have htells := hyields.returns fun i => (T.ctx i).recordCheck_adds f {} trivial
  refine ⟨r, hyields, fun i => ?_, hlogs, fun i => (htells i).2⟩
  refine (hmaps i).congr fun s c => ?_
  rw [T.owns_iff, howner]

theorem count_medium (c : Checker C) : c.medium.count = c.config.partitions := by
  unfold medium
  split
  · next hone => exact hone.symm
  · cases c.config.transport with
    | shared => rfl
    | serialized => exact List.length_replicate

/-- The workers can be connected exactly if there is a place for each pair of them. -/
theorem new_medium (c : Checker C) :
    (c.config.partitions < 0x20000000 ∧ ∃ channel, Channel.new c.medium = .ok channel ∧
      channel.medium = c.medium) ∨
      ¬c.config.partitions < 0x20000000 ∧ ∃ cause, Channel.new c.medium = .error cause := by
  rw [← Exchange.reserve_eq_ok_iff, ← c.count_medium, Channel.new]
  cases Exchange.reserve c.medium.count with
  | ok _ => exact .inl ⟨rfl, _, rfl, rfl⟩
  | error cause => exact .inr ⟨by simp, cause, rfl⟩

/-- What the workers have come to, put together: all results, or the failure of the check. -/
def gather {α : Type} (outcomes : List (Attempt α)) : Except (Failure CheckError) (List α) :=
  Failure.lift (firstFailure (outcomes.zipIdx.map fun (x, id) => report id x))

theorem gather_ofFn {α : Type} {K : Nat} (outcome : Fin K → Attempt α) :
    gather (List.ofFn outcome) =
      Failure.lift (firstFailure (List.ofFn fun i : Fin K => report i (outcome i))) := by
  rw [gather, reports_ofFn]

theorem gather_ok {α : Type} {K : Nat} (r : Fin K → α) :
    gather (List.ofFn fun i => .ok (r i)) = .ok (List.ofFn r) := by
  have hreports : (List.ofFn fun i : Fin K => report i (.ok (r i))) = (List.ofFn r).map .ok := by
    rw [List.map_ofFn]
    rfl
  rw [gather_ofFn, hreports, firstFailure_of_ok, lift_ok]

/-- The results of the workers, formula by formula. -/
def columns (count : Nat) (results : List (List (StateMap C))) : List (List (StateMap C)) :=
  (List.range count).map fun i => results.filterMap (·[i]?)

theorem columns_cons {K : Nat} (count : Nat) (maps : Fin K → StateMap C) (rest : Fin K → List (StateMap C)) :
    columns (count + 1) (List.ofFn fun i => maps i :: rest i) =
      List.ofFn maps :: columns count (List.ofFn rest) := by
  have hfirst : (List.ofFn fun i => maps i :: rest i).filterMap (·[0]?) = List.ofFn maps := by
    rw [List.ofFn_eq_map, List.filterMap_map, List.ofFn_eq_map]
    exact congrFun (List.filterMap_eq_map (f := maps)) _
  have hlater (j : Nat) : (List.ofFn fun i => maps i :: rest i).filterMap (·[j + 1]?) =
      (List.ofFn rest).filterMap (·[j]?) := by
    rw [List.ofFn_eq_map, List.filterMap_map, List.ofFn_eq_map, List.filterMap_map]
    rfl
  rw [columns, List.range_succ_eq_map, List.map_cons, hfirst, List.map_map]
  exact congrArg (List.ofFn maps :: ·) (List.map_congr_left fun j _ => hlater j)

section Failures

variable {c : Checker C} {f : Formula} {cause : Failure CheckError}

/-- A formula is checked as a batch of its own. -/
theorem verify_of_failed (h : c.verifyAll [f] = .error cause) : c.verify f = .error cause := by
  rw [verify, h]
  rfl

theorem verifyMerged_of_failed (h : c.verify f = .error cause) : c.verifyMerged f = .error cause := by
  rw [verifyMerged, h]
  rfl

theorem verifyMerged_of_merge {maps : List (StateMap C)} {m : StateMap C} (h : c.verify f = .ok maps)
    (hmerge : StateMap.merge c.algebra maps c.model.stateCount = .ok m) : c.verifyMerged f = .ok m := by
  rw [verifyMerged, h, ok_bind, hmerge]
  rfl

end Failures

section Results

variable {c : Checker C} {partitions : List Partition} (hcount : 0 < c.config.partitions)
  (hall : Partition.all c.config.strategy c.config.partitions c.model.stateCount = .ok partitions)

include hcount hall

/-- A check of formulas that are not refused connects the workers, and puts together what they come to. -/
theorem verifyAll_eq_connect {formulas : List Formula} (hvalid : ∀ f ∈ formulas, f.validate c.model [] = .ok ()) :
    c.verifyAll formulas = do
      let channel ← (Channel.new c.medium : Except Misuse (Channel C))
      let results ← gather (Crew.run channel.medium (partitions.map (c.worker formulas)))
      return columns formulas.length results := by
  have hvalidate := forM_eq_ok_iff.2 hvalid
  simp only [verifyAll, hvalidate, lift_ok, ok_bind, if_neg (Nat.ne_of_gt hcount), hall, mapError_ok]
  rfl

/-- What the workers come to decides what the check gives. -/
theorem verifyAll_eq_gather (hhub : c.config.partitions < 0x20000000) {formulas : List Formula}
    (hvalid : ∀ f ∈ formulas, f.validate c.model [] = .ok ()) :
    c.verifyAll formulas = do
      let results ← gather (Crew.run c.medium (partitions.map (c.worker formulas)))
      return columns formulas.length results := by
  obtain ⟨_, channel, hnew, hmedium⟩ := c.new_medium.resolve_right fun h => h.1 hhub
  rw [verifyAll_eq_connect hcount hall hvalid, hnew, liftM_ok, ok_bind, hmedium]

/-- Workers that cannot be connected check nothing. -/
theorem verifyAll_of_crowded {cause : Misuse} (hnew : Channel.new c.medium = .error cause)
    {formulas : List Formula} (hvalid : ∀ f ∈ formulas, f.validate c.model [] = .ok ()) :
    c.verifyAll formulas = .error (.misuse cause) := by
  rw [verifyAll_eq_connect hcount hall hvalid, hnew]
  rfl

theorem verify_of_crowded {cause : Misuse} (hnew : Channel.new c.medium = .error cause) {f : Formula}
    (hvalid : f.validate c.model [] = .ok ()) : c.verify f = .error (.misuse cause) :=
  verify_of_failed (verifyAll_of_crowded hcount hall hnew (by simpa using hvalid))

variable (hhub : c.config.partitions < 0x20000000) {f : Formula} (hvalid : f.validate c.model [] = .ok ())

include hhub hvalid

theorem verify_of_run {outcome : Fin c.config.partitions → Attempt (List (StateMap C))}
    (hrun : Crew.run c.medium (partitions.map (c.worker [f])) = List.ofFn outcome) :
    c.verify f = gather (List.ofFn outcome) >>= fun results => pure (results.filterMap (·[0]?)) := by
  rw [verify, verifyAll_eq_gather hcount hall hhub (by simpa using hvalid), hrun, bind_assoc]
  rfl

theorem verify_of_results {maps : Fin c.config.partitions → StateMap C}
    (hrun : Crew.run c.medium (partitions.map (c.worker [f])) = List.ofFn fun i => .ok [maps i]) :
    c.verify f = .ok (List.ofFn maps) := by
  rw [verify_of_run hcount hall hhub hvalid hrun, gather_ok, ok_bind]
  exact congrArg Except.ok (List.cons.inj (columns_cons 0 maps fun _ => [])).1

end Results

/-- A check gives one map for each worker: the states that it owns where the formula holds. -/
theorem verify_spec (hserves : M.Serves R S) (htable : M.stateCount ≤ Capacity.tableLimit) (config : Config)
    (hcount : 0 < config.partitions) (hhub : config.partitions < 0x20000000) {partitions : List Partition}
    (hall : Partition.all config.strategy config.partitions M.stateCount = .ok partitions)
    (hcarries : (medium ⟨A, M, config⟩).Carries config.partitions
      (Sendable R M.stateCount (config.owner M.stateCount)))
    {f : Formula} (hvalid : f.validate M [] = .ok ()) :
    ∃ maps : Fin config.partitions → StateMap C, verify ⟨A, M, config⟩ f = .ok (List.ofFn maps) ∧
      ∀ i, (maps i).Shows R M.stateCount (fun s => ∃ c, config.Answers R S M.stateCount f i s c)
        (config.Answers R S M.stateCount f i) := by
  obtain ⟨T, howner, r, hyields, hmaps, _⟩ := recorder_spec hserves htable config hcount hall hvalid
  have hrun := (hyields.map_result fun r => [r.1]).run_eq (Team.Round.held T (howner ▸ hcarries))
  simp only [map_recorder, ← Partition.map_eq_ofFn hall] at hrun
  exact ⟨fun i => (r i).1, verify_of_results hcount hall hhub hvalid hrun, fun i => (hmaps i).shows⟩

/-- The maps of all workers, put together: the states where the formula holds. -/
theorem merge_answers (htable : M.stateCount ≤ Capacity.tableLimit) {config : Config}
    (hcount : 0 < config.partitions) {partitions : List Partition}
    (hall : Partition.all config.strategy config.partitions M.stateCount = .ok partitions) {f : Formula}
    {maps : Fin config.partitions → StateMap C}
    (hmaps : ∀ i : Fin config.partitions, (maps i).Shows R M.stateCount
      (fun s => ∃ c, config.Answers R S M.stateCount f i s c) (config.Answers R S M.stateCount f i)) :
    ∃ m, StateMap.merge A (List.ofFn maps) M.stateCount = .ok m ∧
      m.Shows R M.stateCount (fun s => ∃ c, s < M.stateCount ∧ c ∈ R.palette ∧ f.Holds (S c) [] s)
        fun s c => s < M.stateCount ∧ c ∈ R.palette ∧ f.Holds (S c) [] s := by
  obtain ⟨m, hmerge, hshows⟩ := StateMap.merge_spec htable hmaps fun hi hj =>
    Fin.ext (hi.1.2.symm.trans hj.1.2)
  refine ⟨m, hmerge, hshows.congr ?_ ?_⟩
  · rintro s ⟨c, i, hc⟩
    exact ⟨c, hc.1.1, hc.2⟩
  · intro s c
    constructor
    · rintro ⟨i, hc⟩
      exact ⟨hc.1.1, hc.2⟩
    · rintro ⟨hs, hc⟩
      have howner := ((Partition.all_eq_ok hall).2 0 hcount).owner_lt hs
      exact ⟨⟨config.owner M.stateCount s, howner⟩, ⟨hs, rfl⟩, hc⟩

/-- A check gives one map of the states where the formula holds. -/
theorem verifyMerged_spec (hserves : M.Serves R S) (htable : M.stateCount ≤ Capacity.tableLimit)
    (config : Config) (hcount : 0 < config.partitions) (hhub : config.partitions < 0x20000000)
    {partitions : List Partition}
    (hall : Partition.all config.strategy config.partitions M.stateCount = .ok partitions)
    (hcarries : (medium ⟨A, M, config⟩).Carries config.partitions
      (Sendable R M.stateCount (config.owner M.stateCount)))
    {f : Formula} (hvalid : f.validate M [] = .ok ()) :
    ∃ m, verifyMerged ⟨A, M, config⟩ f = .ok m ∧
      m.Shows R M.stateCount (fun s => ∃ c, s < M.stateCount ∧ c ∈ R.palette ∧ f.Holds (S c) [] s)
        fun s c => s < M.stateCount ∧ c ∈ R.palette ∧ f.Holds (S c) [] s := by
  obtain ⟨maps, hverify, hmaps⟩ := verify_spec hserves htable config hcount hhub hall hcarries hvalid
  obtain ⟨m, hmerge, hshows⟩ := merge_answers htable hcount hall hmaps
  exact ⟨m, verifyMerged_of_merge hverify hmerge, hshows⟩

end Checker

end ColoredCtl

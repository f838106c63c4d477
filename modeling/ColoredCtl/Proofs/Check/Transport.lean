import ColoredCtl.Proofs.Channel.Frames
import ColoredCtl.Proofs.Check.Progress
import ColoredCtl.Proofs.Check.Verdict

namespace ColoredCtl

open Color

variable {C : Type} {A : Algebra C} {R : Reading A}

/-- What a worker may send has no more entries than it has states. -/
theorem Sendable.length_le {strategy : Strategy} {K n : Nat}
    (hproper : ∀ i < K, (Partition.nth strategy K n i).Proper) (hK : 0 < K) {packet : Packet C}
    (h : Sendable R n (Partition.nth strategy K n 0).owner packet) :
    ∃ i < K, packet.length ≤ (Partition.nth strategy K n i).localStates.length := by
  obtain ⟨i, howner⟩ := h.owner_eq
  cases packet with
  | nil => exact ⟨0, hK, Nat.zero_le _⟩
  | cons entry rest =>
    have hi : i < K := by
      have hentry : (entry.1, entry.2) ∈ entry :: rest := List.mem_cons_self
      rw [← howner hentry]
      exact (hproper 0 hK).owner_lt (h.entry hentry).1
    refine ⟨i, hi, ?_⟩
    have hsub : (entry :: rest).map (·.1) ⊆ (Partition.nth strategy K n i).localStates := by
      intro s hs
      obtain ⟨⟨s, a⟩, hmem, rfl⟩ := List.mem_map.1 hs
      exact (hproper i hi).mem_localStates.2 ⟨(h.entry hmem).1, howner hmem⟩
    have hnodup : ((entry :: rest).map (·.1)).Nodup := h.inOrder.imp Nat.ne_of_lt
    have hle := (hnodup.subperm hsub).length_le
    rwa [List.length_map] at hle

/-- Rounds that are attempted over the medium. -/
theorem Team.Round.attempted {M : Model C} {S : Nat → Kripke} {K : Nat} (T : Team R M S K)
    {purpose : Purpose} {medium : Medium C}
    (h : medium.Attempts K (Sendable R M.stateCount T.owner)) :
    Crew.Attempted (T.Round purpose) medium := by
  intro out incoming hround
  obtain ⟨received, results, hresults, hreceived, hconcludes⟩ := h out hround.brings
  obtain rfl := hround.delivered.unique hreceived
  exact ⟨results, hresults, hconcludes⟩

namespace Checker

variable {M : Model C} {config : Config} {partitions : List Partition}

/-- What connects the workers carries what they send, if it fits the frames they send it in. -/
theorem medium_carries_of_codes (hcount : 0 < config.partitions)
    (hall : Partition.all config.strategy config.partitions M.stateCount = .ok partitions)
    (hwire : config.transport = .serialized → 1 < config.partitions →
      M.stateCount ≤ 0x80000000 ∧ A.Codes R.InDomain ∧
        ∀ p ∈ partitions, p.localStates.length < 0x80000000) :
    (medium ⟨A, M, config⟩).Carries config.partitions
      (Sendable R M.stateCount (config.owner M.stateCount)) := by
  unfold medium
  by_cases hone : config.partitions = 1
  · rw [if_pos hone, hone]
    exact Medium.solo_carries _
  · rw [if_neg hone]
    cases htransport : config.transport with
    | shared => exact Medium.shared_carries _
    | serialized =>
      obtain ⟨hstates, hcodes, hlocal⟩ := hwire htransport (by omega)
      obtain ⟨hpartitions, hproper⟩ := Partition.all_eq_ok hall
      refine Medium.framed_carries hcodes _ fun packet hpacket => ⟨?_, ?_⟩
      · obtain ⟨i, hi, hle⟩ := hpacket.length_le hproper hcount
        refine Nat.lt_of_le_of_lt hle (hlocal _ ?_)
        rw [hpartitions]
        exact List.mem_map.2 ⟨i, List.mem_range.2 hi, rfl⟩
      · intro s a hmem
        obtain ⟨hs, ha⟩ := hpacket.entry hmem
        exact ⟨Nat.lt_of_lt_of_le hs hstates, ha⟩

/-- What connects the workers carries what they send, unless it cannot be written or read. -/
theorem medium_attempts (hcodes : A.Codes R.InDomain ∨ A.Garbles R.InDomain) :
    (medium ⟨A, M, config⟩).Attempts config.partitions
      (Sendable R M.stateCount (config.owner M.stateCount)) := by
  unfold medium
  by_cases hone : config.partitions = 1
  · rw [if_pos hone, hone]
    exact (Medium.solo_carries _).attempts
  · rw [if_neg hone]
    cases config.transport with
    | shared => exact (Medium.shared_carries _).attempts
    | serialized =>
      intro out hout
      refine Medium.framed_attempts hcodes _ out ⟨hout.length_eq, hout.self, ?_⟩
      intro i packet hpacket s a hmem
      exact ((hout.good hpacket).entry hmem).2

/-- The workers write frames for each other. -/
def Frames (c : Checker C) : Prop := c.config.transport = .serialized ∧ 1 < c.config.partitions

/-- The same workers, when they hand over what they send as it is. -/
def unframed (c : Checker C) : Checker C := { c with config := { c.config with transport := .shared } }

theorem medium_unframed {c : Checker C} (hcount : 0 < c.config.partitions) (h : ¬c.Frames) :
    c.medium = c.unframed.medium := by
  unfold medium
  by_cases hone : c.config.partitions = 1
  · rw [if_pos hone, if_pos (show c.unframed.config.partitions = 1 from hone)]
  · rw [if_neg hone, if_neg (show ¬c.unframed.config.partitions = 1 from hone)]
    cases htransport : c.config.transport with
    | shared => rfl
    | serialized => exact absurd ⟨htransport, by omega⟩ h

/-- All that the workers may send fits the frames that they send it in. -/
def FramesFit (c : Checker C) (R : Reading c.algebra) (partitions : List Partition) : Prop :=
  c.model.stateCount ≤ 0x80000000 ∧ c.algebra.Codes R.InDomain ∧
    ∀ p ∈ partitions, p.localStates.length < 0x80000000

/-- The workers come to their results, without frames and with frames that fit. -/
structure Finishes (c : Checker C) (R : Reading c.algebra) (partitions : List Partition) {α : Type}
    (worker : Partition → Worker C α) (results : Fin c.config.partitions → α) : Prop where
  run_unframed : Crew.run c.unframed.medium (partitions.map worker) = List.ofFn fun i => .ok (results i)
  run_of_fit : (c.Frames → c.FramesFit R partitions) →
    Crew.run c.medium (partitions.map worker) = List.ofFn fun i => .ok (results i)
  /-- No worker fails but for a frame that cannot be written or read. -/
  run_cases : Crew.run c.medium (partitions.map worker) = List.ofFn (fun i => .ok (results i)) ∨
    c.Frames ∧ ∃ outcome : Fin c.config.partitions → Attempt α,
      Crew.run c.medium (partitions.map worker) = List.ofFn outcome ∧
      (∀ i, outcome i = .ok (results i) ∨ ∃ cause, outcome i = .error (.error (.channel cause)) ∧
        (cause = .aborted ∨ cause.OfWire)) ∧
      ∃ i cause, outcome i = .error (.error (.channel cause)) ∧ cause.OfWire

section Rounds

variable {c : Checker C} {R : Reading c.algebra} {S : Nat → Kripke} {partitions : List Partition}
  {T : Team R c.model S c.config.partitions} {purpose : Purpose}

/-- The rounds of the workers succeed, if what they send fits the frames that they send it in. -/
theorem held_of_fit (howner : T.owner = c.config.owner c.model.stateCount) (hcount : 0 < c.config.partitions)
    (hall : Partition.all c.config.strategy c.config.partitions c.model.stateCount = .ok partitions)
    (hfit : c.Frames → c.FramesFit R partitions) : Crew.Held (T.Round purpose) c.medium := by
  have hcarries : c.medium.Carries c.config.partitions
      (Sendable R c.model.stateCount (c.config.owner c.model.stateCount)) :=
    medium_carries_of_codes hcount hall fun htransport hseveral => hfit ⟨htransport, hseveral⟩
  exact Team.Round.held T (howner ▸ hcarries)

/-- The rounds of the workers succeed without frames. -/
theorem held_unframed (howner : T.owner = c.config.owner c.model.stateCount)
    (hcount : 0 < c.config.partitions)
    (hall : Partition.all c.config.strategy c.config.partitions c.model.stateCount = .ok partitions) :
    Crew.Held (T.Round purpose) c.unframed.medium := by
  have hcarries : c.unframed.medium.Carries c.config.partitions
      (Sendable R c.model.stateCount (c.config.owner c.model.stateCount)) :=
    medium_carries_of_codes hcount hall fun htransport => by cases htransport
  exact Team.Round.held T (howner ▸ hcarries)

/-- The rounds of the workers succeed, unless something cannot be written or read. -/
theorem attempted (howner : T.owner = c.config.owner c.model.stateCount)
    (hcodes : c.algebra.Codes R.InDomain ∨ c.algebra.Garbles R.InDomain) :
    Crew.Attempted (T.Round purpose) c.medium :=
  Team.Round.attempted T (howner ▸ medium_attempts hcodes)

/-- The workers come to their results, unless a frame cannot be written or read. -/
theorem run_cases {α : Type} {w : Fin c.config.partitions → Worker C α} {r : Fin c.config.partitions → α}
    (h : Crew.Yields (T.Round purpose) w r) (hcount : 0 < c.config.partitions)
    (hheld : Crew.Held (T.Round purpose) c.unframed.medium)
    (hattempted : Crew.Attempted (T.Round purpose) c.medium) :
    Crew.run c.medium (List.ofFn w) = List.ofFn (fun i => .ok (r i)) ∨
      c.Frames ∧ ∃ b : Fin c.config.partitions → Worker C α,
        Crew.run c.medium (List.ofFn w) = List.ofFn (fun i => (b i).outcome) ∧ Crew.Broken r b := by
  by_cases hframes : c.Frames
  · exact (h.run_spec hattempted).imp_right fun hbroken => ⟨hframes, hbroken⟩
  · rw [medium_unframed hcount hframes]
    exact .inl (h.run_eq hheld)

/-- The workers of a team that come to results finish in every case. -/
theorem finishes_of_yields {α : Type} {worker : Partition → Worker C α}
    {results : Fin c.config.partitions → α} (howner : T.owner = c.config.owner c.model.stateCount)
    (hcodes : c.algebra.Codes R.InDomain ∨ c.algebra.Garbles R.InDomain) (hcount : 0 < c.config.partitions)
    (hall : Partition.all c.config.strategy c.config.partitions c.model.stateCount = .ok partitions)
    (h : Crew.Yields (T.Round purpose) (fun i => worker
      (Partition.nth c.config.strategy c.config.partitions c.model.stateCount i)) results) :
    c.Finishes R partitions worker results := by
  have hunframed : Crew.Held (T.Round purpose) c.unframed.medium := held_unframed howner hcount hall
  refine ⟨?_, ?_, ?_⟩
  · rw [Partition.map_eq_ofFn hall]
    exact h.run_eq hunframed
  · intro hfit
    rw [Partition.map_eq_ofFn hall]
    exact h.run_eq (held_of_fit howner hcount hall hfit)
  · rw [Partition.map_eq_ofFn hall]
    refine (run_cases h hcount hunframed (attempted howner hcodes)).imp_right ?_
    rintro ⟨hframes, broken, hrun, hbroken⟩
    obtain ⟨i, cause, hcause, hwire⟩ := hbroken.blame
    exact ⟨hframes, _, hrun, hbroken.outcome_spec, i, cause, congrArg Worker.outcome hcause, hwire⟩

end Rounds

/-- A check gives the maps of the workers. -/
structure Gives (c : Checker C) (R : Reading c.algebra) (partitions : List Partition) (f : Formula)
    (maps : Fin c.config.partitions → StateMap C) : Prop where
  verify_of_fit : (c.Frames → c.FramesFit R partitions) → c.verify f = .ok (List.ofFn maps)
  /-- The check does not fail but for a frame that cannot be written or read. -/
  verify_cases : c.verify f = .ok (List.ofFn maps) ∨
    c.Frames ∧ ∃ cause, c.verify f = .error (.error (.channel cause)) ∧ cause.OfWire

/-- What is known of the workers of a division of the states when they check a formula. -/
structure Runs (c : Checker C) {R : Reading c.algebra} {S : Nat → Kripke} (f : Formula)
    (T : Team R c.model S c.config.partitions)
    (results : Fin c.config.partitions → StateMap C × Journal C) : Prop where
  owner_eq : T.owner = c.config.owner c.model.stateCount
  recorders : Crew.Yields (T.Round .tell) (fun i => c.recorder f
    (Partition.nth c.config.strategy c.config.partitions c.model.stateCount i)) results
  workers : Crew.Yields (T.Round .tell) (fun i => c.worker [f]
    (Partition.nth c.config.strategy c.config.partitions c.model.stateCount i)) fun i => [(results i).1]
  tabulates : ∀ i, (results i).1.Tabulates R c.model.stateCount
    (c.config.Answers R S c.model.stateCount f i)
  logs : T.Logs fun i => (results i).2
  tells : ∀ i, (results i).2.Tells c.model.stateCount f []
  held : Crew.Held (T.Round .tell) c.unframed.medium
  attempted : Crew.Attempted (T.Round .tell) c.medium

theorem exists_runs (c : Checker C) {R : Reading c.algebra} {S : Nat → Kripke}
    (hserves : c.model.Serves R S) (htable : c.model.stateCount ≤ Capacity.tableLimit)
    (hcodes : c.algebra.Codes R.InDomain ∨ c.algebra.Garbles R.InDomain) (hcount : 0 < c.config.partitions)
    {partitions : List Partition}
    (hall : Partition.all c.config.strategy c.config.partitions c.model.stateCount = .ok partitions)
    {f : Formula} (hvalid : f.validate c.model [] = .ok ()) :
    ∃ (T : Team R c.model S c.config.partitions) (results : _), c.Runs f T results := by
  obtain ⟨T, howner, results, hyields, hmaps, hlogs, htells⟩ :=
    recorder_spec hserves htable c.config hcount hall hvalid
  have hworkers := hyields.map_result fun r => [r.1]
  simp only [map_recorder] at hworkers
  exact ⟨T, results, howner, hyields, hworkers, hmaps, hlogs, htells, held_unframed howner hcount hall,
    attempted howner hcodes⟩

/-- The failure of a broken crew is that something could not be written or read. -/
theorem firstFailure_of_broken {α : Type} {K : Nat} {r : Fin K → α} {b : Fin K → Worker C α}
    (h : Crew.Broken r b) :
    ∃ cause, firstFailure (List.ofFn fun i : Fin K => report i (b i).outcome) = .error (.channel cause) ∧
      cause.OfWire := by
  refine firstFailure_of_blame ?_ ?_
  · rw [List.forall_mem_ofFn_iff]
    intro i
    obtain hok | ⟨cause, hcause, hkind⟩ := h.outcome_spec i
    · exact .inl ⟨r i, by rw [hok]; rfl⟩
    · exact .inr ⟨cause, by rw [hcause]; rfl, hkind⟩
  · obtain ⟨i, cause, hcause, hwire⟩ := h.blame
    exact ⟨cause, List.mem_ofFn.2 ⟨i, by rw [hcause]; rfl⟩, hwire⟩

namespace Runs

variable {c : Checker C} {R : Reading c.algebra} {S : Nat → Kripke} {f : Formula}
  {T : Team R c.model S c.config.partitions} {results : Fin c.config.partitions → StateMap C × Journal C}
  {partitions : List Partition}

/-- The workers come to their results, without frames. -/
theorem run_unframed (h : c.Runs f T results)
    (hall : Partition.all c.config.strategy c.config.partitions c.model.stateCount = .ok partitions) :
    Crew.run c.unframed.medium (partitions.map (c.recorder f)) = List.ofFn fun i => .ok (results i) := by
  rw [Partition.map_eq_ofFn hall]
  exact h.recorders.run_eq h.held

/-- The workers come to their results, unless a frame cannot be written or read. -/
theorem run_spec (h : c.Runs f T results) (hcount : 0 < c.config.partitions)
    (hall : Partition.all c.config.strategy c.config.partitions c.model.stateCount = .ok partitions) :
    Crew.run c.medium (partitions.map (c.worker [f])) = List.ofFn (fun i => .ok [(results i).1]) ∨
      c.Frames ∧ ∃ b : Fin c.config.partitions → Worker C (List (StateMap C)),
        Crew.run c.medium (partitions.map (c.worker [f])) = List.ofFn (fun i => (b i).outcome) ∧
          Crew.Broken (fun i => [(results i).1]) b := by
  rw [Partition.map_eq_ofFn hall]
  exact run_cases h.workers hcount h.held h.attempted

/-- A check gives the maps of the workers, unless a frame cannot be written or read. -/
theorem verify_cases (h : c.Runs f T results) (hcount : 0 < c.config.partitions)
    (hhub : c.config.partitions < 0x20000000)
    (hall : Partition.all c.config.strategy c.config.partitions c.model.stateCount = .ok partitions)
    (hvalid : f.validate c.model [] = .ok ()) :
    c.verify f = .ok (List.ofFn fun i => (results i).1) ∨ c.Frames ∧
      ∃ cause, c.verify f = .error (.error (.channel cause)) ∧ cause.OfWire := by
  obtain hrun | ⟨hframes, broken, hrun, hbroken⟩ := h.run_spec hcount hall
  · exact .inl (verify_of_results hcount hall hhub hvalid hrun)
  · right
    obtain ⟨cause, hfailure, hwire⟩ := firstFailure_of_broken hbroken
    refine ⟨hframes, cause, ?_, hwire⟩
    rw [verify_of_run hcount hall hhub hvalid hrun, gather_ofFn, hfailure]
    rfl

/-- A check gives the maps of the workers, if what they send fits its frames. -/
theorem verify_of_fit (h : c.Runs f T results) (hcount : 0 < c.config.partitions)
    (hhub : c.config.partitions < 0x20000000)
    (hall : Partition.all c.config.strategy c.config.partitions c.model.stateCount = .ok partitions)
    (hvalid : f.validate c.model [] = .ok ()) (hfit : c.Frames → c.FramesFit R partitions) :
    c.verify f = .ok (List.ofFn fun i => (results i).1) := by
  apply verify_of_results hcount hall hhub hvalid
  rw [Partition.map_eq_ofFn hall]
  exact h.workers.run_eq (held_of_fit h.owner_eq hcount hall hfit)

theorem gives (h : c.Runs f T results) (hcount : 0 < c.config.partitions)
    (hhub : c.config.partitions < 0x20000000)
    (hall : Partition.all c.config.strategy c.config.partitions c.model.stateCount = .ok partitions)
    (hvalid : f.validate c.model [] = .ok ()) : c.Gives R partitions f fun i => (results i).1 :=
  ⟨h.verify_of_fit hcount hhub hall hvalid, h.verify_cases hcount hhub hall hvalid⟩

end Runs

/-- The check of a formula gives a map, unless frames are used and one of them cannot be written or read. -/
def Settles (c : Checker C) (f : Formula) : Prop :=
  (∃ m, c.verifyMerged f = .ok m) ∨
    c.Frames ∧ ∃ cause, c.verifyMerged f = .error (.error (.channel cause)) ∧ cause.OfWire

/-- The check of a formula gives no other map than that of the states where the formula holds. -/
theorem settles_spec (c : Checker C) {R : Reading c.algebra} {S : Nat → Kripke}
    (hserves : c.model.Serves R S) (htable : c.model.stateCount ≤ Capacity.tableLimit)
    (hcodes : c.algebra.Codes R.InDomain ∨ c.algebra.Garbles R.InDomain)
    (hcount : 0 < c.config.partitions) (hhub : c.config.partitions < 0x20000000)
    {partitions : List Partition}
    (hall : Partition.all c.config.strategy c.config.partitions c.model.stateCount = .ok partitions)
    {f : Formula} (hvalid : f.validate c.model [] = .ok ()) :
    c.Settles f ∧ ∀ m, c.verifyMerged f = .ok m → m.Shows R c.model.stateCount
      (fun s => ∃ color, s < c.model.stateCount ∧ color ∈ R.palette ∧ f.Holds (S color) [] s)
      fun s color => s < c.model.stateCount ∧ color ∈ R.palette ∧ f.Holds (S color) [] s := by
  obtain ⟨T, results, hruns⟩ := exists_runs c hserves htable hcodes hcount hall hvalid
  obtain ⟨merged, hmerge, hshows⟩ := merge_answers htable hcount hall fun i => (hruns.tabulates i).shows
  obtain hverify | ⟨hframes, cause, hverify, hwire⟩ := hruns.verify_cases hcount hhub hall hvalid
  · have hmerged := verifyMerged_of_merge hverify hmerge
    refine ⟨.inl ⟨merged, hmerged⟩, fun m hm => ?_⟩
    cases hm.symm.trans hmerged
    exact hshows
  · have hfailed := verifyMerged_of_failed hverify
    refine ⟨.inr ⟨hframes, cause, hfailed, hwire⟩, fun m hm => ?_⟩
    cases hm.symm.trans hfailed

end Checker

end ColoredCtl

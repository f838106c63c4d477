import ColoredCtl.Proofs.Check.Caching
import ColoredCtl.Proofs.Check.Verdict

namespace ColoredCtl

open Color

variable {C : Type}

namespace Frame

/-- A packet with more entries than can be counted in a frame has no frame. -/
theorem encode_of_length_ge {A : Algebra C} {packet : Packet C} (h : 0x80000000 ≤ packet.length) :
    encode A packet = .error (.error (.frame (.tooManyEntries packet.length))) := by
  rw [encode, if_neg (Nat.not_lt.2 h)]
  rfl

/-- A state that is too large for a frame has no entry in one. -/
theorem encode_of_state_ge {A : Algebra C} {s : Nat} (h : 0x80000000 ≤ s) (a : C) :
    encode A [(s, a)] = .error (.error (.stateTooLarge s)) := by
  have hentry : encodeEntry A (s, a) = .error (.error (.stateTooLarge s)) := by
    rw [encodeEntry, if_neg (Nat.not_lt.2 h)]
    rfl
  rw [encode, if_pos (show [(s, a)].length < 0x80000000 by simp), List.mapM_cons, hentry]
  rfl

end Frame

/-- A traversal fails when all steps that fail do so for the same cause, and there is one. -/
theorem mapM_eq_error {ε α β : Type} {f : α → Except ε β} {cause : ε} {l : List α}
    (hall : ∀ x ∈ l, (∃ y, f x = .ok y) ∨ f x = .error cause) (hone : ∃ x ∈ l, f x = .error cause) :
    l.mapM f = .error cause := by
  induction l with
  | nil => simp at hone
  | cons x l ih =>
    rw [List.mapM_cons]
    obtain ⟨y, hy⟩ | hx := hall x List.mem_cons_self
    · have hrest : ∃ x ∈ l, f x = .error cause := by
        obtain ⟨z, hz, hcause⟩ := hone
        obtain rfl | hz := List.mem_cons.1 hz
        · rw [hy] at hcause
          cases hcause
        · exact ⟨z, hz, hcause⟩
      rw [hy, ih (fun z hz => hall z (List.mem_cons_of_mem _ hz)) hrest]
      rfl
    · rw [hx]
      rfl

namespace Carrier

variable {T : Type} {K : Nat} {out : Outgoing C}

/-- An endpoint that has nothing to send takes part in a round. -/
theorem prepare_of_nothing (carrier : Carrier C T) (hlength : out.length = K)
    (hnothing : ∀ packet, some packet ∉ out) : ∃ row, carrier.prepare K out = .ok row := by
  rw [prepare, if_neg (not_not.2 hlength)]
  refine ⟨_, mapM_eq_ok (g := fun _ => none) fun packet hpacket => ?_⟩
  cases packet with
  | none => rfl
  | some packet => exact absurd hpacket (hnothing packet)

/-- An endpoint does not take part when there is something to send, and it can pack none of it. -/
theorem prepare_of_refused {carrier : Carrier C T} {cause : Failure ChannelError} (hlength : out.length = K)
    (hall : ∀ packet, some packet ∈ out → carrier.pack packet = .error cause)
    (hsome : ∃ packet, some packet ∈ out) : carrier.prepare K out = .error cause := by
  have hpack (packet : Packet C) (hpacket : some packet ∈ out) :
      (do return some (← carrier.pack packet) : Except (Failure ChannelError) (Option T)) = .error cause := by
    rw [hall packet hpacket]
    rfl
  obtain ⟨sent, hsent⟩ := hsome
  rw [prepare, if_neg (not_not.2 hlength)]
  refine mapM_eq_error (fun packet hpacket => ?_) ⟨some sent, hsent, hpack sent hsent⟩
  cases packet with
  | none => exact .inl ⟨none, rfl⟩
  | some packet => exact .inr (hpack packet hpacket)

end Carrier

/-- The workers of a crew end with what they are told when a round fails for all of them. -/
theorem Crew.run_of_failed {K : Nat} {α : Type} {medium : Medium C} {w : Fin K → Worker C α}
    {out : Fin K → Outgoing C} {cause : Fin K → Failure ChannelError}
    (hwaits : ∀ j, (w j).out? = some (out j))
    (hround : medium.round false (List.ofFn fun j => some (out j)) =
      List.ofFn fun j => .error (cause j)) :
    run medium (List.ofFn w) = List.ofFn fun j => .error ((cause j).map .channel) := by
  cases K with
  | zero => simp [run]
  | succ K =>
    rw [run_of_round hwaits hround, if_neg fun hall => Bool.false_ne_true (hall 0)]
    refine congrArg List.ofFn (funext fun j => ?_)
    have hout := hwaits j
    cases hw : w j with
    | meet out resume => rfl
    | done a | fail failure =>
      rw [hw] at hout
      cases hout

/-- A worker sends first what it sends before it goes on. -/
theorem Worker.out?_bind {α β : Type} {w : Worker C α} {out : Outgoing C} (h : w.out? = some out)
    (next : α → Worker C β) : (w >>= next).out? = some out := by
  cases w with
  | meet _ _ => exact h
  | done _ | fail _ => cases h

theorem out?_share {f : Formula} {memo : Memo C} (hunknown : memo.find? f = none)
    {compute : Shared C (StateMap C)} {out : Outgoing C} (h : (compute.run memo).out? = some out) :
    ((share f compute).run memo).out? = some out := by
  rw [run_share_of_unknown hunknown]
  exact Worker.out?_bind h _

namespace Context

variable {ctx : Context C} {f g : Formula} {env : Env} {memo : Memo C} {out : Outgoing C}

theorem out?_eval_not (hunknown : memo.find? (.not f) = none)
    (h : ((ctx.eval f env).run memo).out? = some out) : ((ctx.eval (.not f) env).run memo).out? = some out :=
  out?_share hunknown (Worker.out?_bind h _)

/-- The map of all states is kept, if it is not known yet. -/
theorem run_eval_top (hunknown : memo.find? .top = none) :
    (ctx.eval .top env).run memo = .done (ctx.localMap, memo.insert .top ctx.localMap) := by
  rw [eval, run_share_of_unknown hunknown]
  rfl

theorem out?_eval_hold {quantifier : PathQuantifier} {weak : Bool} {course : Course}
    (hunknown : memo.find? (.hold quantifier weak course .top g) = none) (htop : memo.find? .top = none)
    (h : ((ctx.eval g env).run (memo.insert .top ctx.localMap)).out? = some out) :
    ((ctx.eval (.hold quantifier weak course .top g) env).run memo).out? = some out := by
  refine out?_share hunknown ?_
  rw [StateT.run_bind, run_eval_top htop]
  exact Worker.out?_bind h _

end Context

namespace Checker

variable {c : Checker C} {partitions : List Partition}

section Refused

variable (hall : Partition.all c.config.strategy c.config.partitions c.model.stateCount = .ok partitions)
  (htransport : c.config.transport = .serialized) (hcount : 1 < c.config.partitions)
  (hhub : c.config.partitions < 0x20000000) {formulas : List Formula}
  (hvalid : ∀ f ∈ formulas, f.validate c.model [] = .ok ())

include hall htransport hcount hhub hvalid

/-- A check fails as the one worker does that cannot write what it should send in the first round. -/
theorem verifyAll_of_refused {out : Fin c.config.partitions → Outgoing C}
    (hsends : ∀ j : Fin c.config.partitions, (c.worker formulas
      (Partition.nth c.config.strategy c.config.partitions c.model.stateCount j)).out? = some (out j))
    (i : Fin c.config.partitions) {cause : ChannelError} (hown : cause ≠ .aborted)
    (hrefused : (Carrier.framed c.algebra).prepare c.config.partitions (out i) = .error (.error cause))
    (hothers : ∀ j ≠ i, ∃ row, (Carrier.framed c.algebra).prepare c.config.partitions (out j) = .ok row) :
    c.verifyAll formulas = .error (.error (.channel cause)) := by
  have hround : c.medium.round false (List.ofFn fun j => some (out j)) =
      List.ofFn fun j => .error (.error (if j = i then cause else .aborted)) := by
    rw [medium, if_neg (Nat.ne_of_gt hcount), htransport, Medium.round, List.map_replicate]
    refine (meet_of_refused hrefused).trans (congrArg List.ofFn (funext fun j => ?_))
    by_cases hj : j = i
    · subst hj
      rw [hrefused, if_pos rfl]
      rfl
    · obtain ⟨row, hrow⟩ := hothers j hj
      rw [hrow, if_neg hj]
      rfl
  have hrun := Crew.run_of_failed hsends hround
  have hfirst : firstFailure (List.ofFn fun j : Fin c.config.partitions => report j (.error (Failure.map .channel
      (.error (if j = i then cause else .aborted))) : Attempt (List (StateMap C)))) =
        .error (.channel cause) := by
    refine firstFailure_of_first i (by rw [if_pos rfl]; rfl) (by simpa using hown) fun j hj => .inr ?_
    rw [if_neg hj.ne]
    rfl
  rw [verifyAll_eq_gather (Nat.lt_of_succ_lt hcount) hall hhub hvalid, Partition.map_eq_ofFn hall, hrun,
    gather_ofFn, hfirst]
  rfl

end Refused

section Announcement

/-- What a worker sends when it starts with a quantifier over all states: the states that it owns, with
all colors, to every other worker. -/
def announcement (A : Algebra C) (localSet : StateSet) (i K : Nat) : Outgoing C :=
  let packet := localSet.toList.map (·, A.full.get)
  (List.range K).map fun destination =>
    if destination ≠ i && !packet.isEmpty then some packet else none

theorem length_announcement {A : Algebra C} {localSet : StateSet} {i K : Nat} :
    (announcement A localSet i K).length = K := by
  simp [announcement]

theorem mem_announcement {A : Algebra C} {localSet : StateSet} {i K : Nat} {packet : Packet C} :
    some packet ∈ announcement A localSet i K ↔ (∃ destination < K, destination ≠ i) ∧
      localSet.toList ≠ [] ∧ packet = localSet.toList.map (·, A.full.get) := by
  simp only [announcement, List.mem_map, List.mem_range]
  constructor
  · rintro ⟨destination, hlt, hsent⟩
    split at hsent
    · next hgoes =>
      cases hsent
      obtain ⟨hne, hfull⟩ := Bool.and_eq_true_iff.1 hgoes
      exact ⟨⟨destination, hlt, of_decide_eq_true hne⟩, by simpa using hfull, rfl⟩
    · cases hsent
  · rintro ⟨⟨destination, hlt, hne⟩, hfull, rfl⟩
    exact ⟨destination, hlt, by simp [hne, hfull]⟩

/-- The workers start with a quantifier over all states. -/
def Announces (c : Checker C) (formulas : List Formula) : Prop :=
  ∀ {p : Partition} {localSet : StateSet}, p.localSet = .ok localSet →
    (c.worker formulas p).out? = some (announcement c.algebra localSet p.id p.count)

theorem out?_worker {p : Partition} {ctx : Context C} (hmake : Context.make c.algebra c.model p = .ok ctx)
    {f : Formula} {out : Outgoing C} (h : ((ctx.eval f []).run {}).out? = some out) (rest : List Formula) :
    (c.worker (f :: rest) p).out? = some out := by
  have hcheck : (ctx.check f).out? = some out := Worker.out?_bind (Worker.out?_bind h _) _
  have hworker : c.worker (f :: rest) p = (f :: rest).mapM ctx.check := by
    rw [worker, hmake]
    rfl
  rw [hworker, List.mapM_cons]
  exact Worker.out?_bind hcheck _

theorem out?_eval_forAll_top {ctx : Context C} {name : String} {f : Formula} {env : Env} {memo : Memo C}
    (hunknown : memo.find? (.forAll name .top f) = none)
    (htop : memo.find? .top = none ∨ memo.find? .top = some ctx.localMap) :
    ((ctx.eval (.forAll name .top f) env).run memo).out? =
      some (announcement ctx.algebra ctx.localSet ctx.partition.id ctx.partition.count) := by
  refine out?_share hunknown ?_
  obtain ⟨kept, heval⟩ : ∃ kept, (ctx.eval .top env).run memo = .done (ctx.localMap, kept) := by
    obtain htop | htop := htop
    · exact ⟨_, Context.run_eval_top htop⟩
    · exact ⟨memo, run_share_of_known htop _⟩
  rw [StateT.run_bind, heval]
  rfl

theorem announces_of_eval {f : Formula} (rest : List Formula)
    (h : ∀ ctx : Context C, ((ctx.eval f []).run {}).out? =
      some (announcement ctx.algebra ctx.localSet ctx.partition.id ctx.partition.count)) :
    c.Announces (f :: rest) := by
  intro p localSet hlocal
  have hmake : Context.make c.algebra c.model p = .ok ⟨c.algebra, c.model, p, localSet⟩ := by
    rw [Context.make, hlocal]
    rfl
  exact out?_worker hmake (h _) rest

theorem announces_forAll_top (name : String) (f : Formula) (rest : List Formula) :
    c.Announces (.forAll name .top f :: rest) :=
  announces_of_eval rest fun _ => out?_eval_forAll_top (Memo.find?_empty _) (.inl (Memo.find?_empty _))

theorem announces_globally (quantifier : PathQuantifier) (course : Course) (name : String) (f : Formula) :
    c.Announces [.not (.hold quantifier false course .top (.not (.forAll name .top f)))] := by
  refine announces_of_eval [] fun ctx => Context.out?_eval_not (Memo.find?_empty _)
    (Context.out?_eval_hold (Memo.find?_empty _) (Memo.find?_empty _) ?_)
  -- Only the map of all states is kept by then.
  refine Context.out?_eval_not ?_ (out?_eval_forAll_top ?_ (.inr ?_)) <;> rw [Memo.find?_insert] <;> simp

/-- They cannot do so when one of several workers owns more states than can be counted in a frame. -/
theorem verifyAll_of_announces
    (hall : Partition.all c.config.strategy c.config.partitions c.model.stateCount = .ok partitions)
    (htransport : c.config.transport = .serialized) (hcount : 1 < c.config.partitions)
    (hhub : c.config.partitions < 0x20000000) (i : Fin c.config.partitions)
    (howner : ∀ s < c.model.stateCount, c.config.owner c.model.stateCount s = i)
    (hlarge : 0x80000000 ≤ c.model.stateCount) {formulas : List Formula}
    (hvalid : ∀ f ∈ formulas, f.validate c.model [] = .ok ()) (hannounces : c.Announces formulas) :
    c.verifyAll formulas = .error (.error (.channel (.frame (.tooManyEntries c.model.stateCount)))) := by
  obtain ⟨_, hproper⟩ := Partition.all_eq_ok hall
  choose localSet hlocal hspace hmem using
    fun j : Fin c.config.partitions => (hproper j j.isLt).localSet_spec
  have hlength : (localSet i).toList.length = c.model.stateCount := by
    rw [StateSet.toList_eq, hspace i, List.filter_eq_self.2, List.length_range]
    · rfl
    · exact fun s hs => (hmem i s).2 ⟨List.mem_range.1 hs, howner s (List.mem_range.1 hs)⟩
  have hnil (j : Fin c.config.partitions) (hj : j ≠ i) : (localSet j).toList = [] := by
    rw [List.eq_nil_iff_forall_not_mem]
    intro s hs
    obtain ⟨hlt, hown⟩ := (hmem j s).1 ((StateSet.mem_toList _ _).1 hs)
    exact hj (Fin.ext (hown.symm.trans (howner s hlt)))
  refine verifyAll_of_refused hall htransport hcount hhub hvalid (fun j => hannounces (hlocal j)) i (by simp) ?_
    fun j hj => ?_
  · refine Carrier.prepare_of_refused length_announcement (fun packet hpacket => ?_) ?_
    · obtain ⟨_, _, rfl⟩ := mem_announcement.1 hpacket
      change Frame.encode c.algebra _ = _
      rw [Frame.encode_of_length_ge (by rwa [List.length_map, hlength]), List.length_map, hlength]
    · obtain ⟨destination, hlt, hne⟩ : ∃ destination < c.config.partitions, destination ≠ i := by
        by_cases hi : (i : Nat) = 0
        · exact ⟨1, hcount, by omega⟩
        · exact ⟨0, by omega, by omega⟩
      refine ⟨_, mem_announcement.2 ⟨⟨destination, hlt, hne⟩, fun hempty => ?_, rfl⟩⟩
      rw [hempty, List.length_nil] at hlength
      omega
  · refine Carrier.prepare_of_nothing _ length_announcement fun packet hpacket => ?_
    exact (mem_announcement.1 hpacket).2.1 (hnil j hj)

/-- Two workers that write frames, the first of which owns all of `0x80000000` states. -/
def crowded : Config := { partitions := 2, strategy := .block 0x80000000, transport := .serialized }

/-- A quantifier over all these states cannot be checked, whatever the colors are. -/
theorem verifyAll_crowded (A : Algebra C) {formulas : List Formula}
    (hvalid : ∀ f ∈ formulas,
      f.validate ((⟨0x80000000, [], [], none⟩ : ExplicitModel C).toModel A) [] = .ok ())
    (hannounces : Announces ⟨A, (⟨0x80000000, [], [], none⟩ : ExplicitModel C).toModel A, crowded⟩ formulas) :
    verifyAll ⟨A, (⟨0x80000000, [], [], none⟩ : ExplicitModel C).toModel A, crowded⟩ formulas =
      .error (.error (.channel (.frame (.tooManyEntries 0x80000000)))) := by
  have hall : Partition.all (.block 0x80000000) 2 0x80000000 = .ok [⟨.block 0x80000000, 0, 2, 0x80000000⟩,
      ⟨.block 0x80000000, 1, 2, 0x80000000⟩] := rfl
  refine verifyAll_of_announces hall rfl Nat.one_lt_two (show 2 < 0x20000000 by decide) ⟨0, Nat.two_pos⟩
    (fun s hs => ?_) (Nat.le_refl _) hvalid hannounces
  have hblock : s / 0x80000000 = 0 := Nat.div_eq_of_lt hs
  change s / 0x80000000 % 2 = 0
  rw [hblock]

theorem verify_crowded (A : Algebra C) {f : Formula}
    (hvalid : f.validate ((⟨0x80000000, [], [], none⟩ : ExplicitModel C).toModel A) [] = .ok ())
    (hannounces : Announces ⟨A, (⟨0x80000000, [], [], none⟩ : ExplicitModel C).toModel A, crowded⟩ [f]) :
    verify ⟨A, (⟨0x80000000, [], [], none⟩ : ExplicitModel C).toModel A, crowded⟩ f =
      .error (.error (.channel (.frame (.tooManyEntries 0x80000000)))) :=
  verify_of_failed (verifyAll_crowded A (by simpa using hvalid) hannounces)

end Announcement

section Steps

/-- What a worker sends to find some step into all of its states: the states with such a step, to their
owners. -/
theorem someStep_localMap {ctx : Context C} {R : Reading ctx.algebra} {S : Nat → Kripke} (h : ctx.Ready R S)
    (course : Course) : ∃ staging : Staging C,
      (Next.someStep ctx course ctx.localMap).out? = some staging.outgoing ∧
      staging.Fits R ctx.stateCount ctx.partition.count ctx.id ∧
      ∀ {j t color}, color ∈ staging.colorsFor R j t ↔ j ≠ ctx.id ∧ ctx.partition.owner t = j ∧
        ∃ s, ctx.Owns s ∧ color ∈ R.palette ∧ (S color).Leads course t s := by
  obtain ⟨packet, hpacket, hgathered⟩ := Next.contributions_spec h course h.localMap_shows
  obtain ⟨start, hstart, hsplits⟩ := Scatter.new_spec h
  obtain ⟨scattered, hscattered, hsplits⟩ := Scatter.addAll_spec h
    (fun t a hta => ⟨hgathered.within hta, hgathered.inDomain hta⟩) hsplits
  refine ⟨scattered.staging, ?_, hsplits.staging_fits, fun {j t color} => ?_⟩
  · rw [Next.someStep, hpacket, hstart]
    change (liftM (Attempt.ofMap (packet.foldlM (Scatter.add ctx) start)) >>= _ : Worker C (StateMap C)).out? = _
    rw [hscattered]
    rfl
  · rw [hsplits.mem_staging, hgathered.mem_iff]
    simp

theorem out?_someStep_top {ctx : Context C} {course : Course} {out : Outgoing C}
    (h : (Next.someStep ctx course ctx.localMap).out? = some out) :
    ((ctx.eval (.next .some course .top) []).run {}).out? = some out := by
  refine out?_share (Memo.find?_empty _) ?_
  rw [StateT.run_bind, Context.run_eval_top (Memo.find?_empty _)]
  exact Worker.out?_bind h _

/-- What is staged at one state only is one entry. -/
theorem eq_singleton_of_outgoing {A : Algebra C} {R : Reading A} {n count id : Nat} {staging : Staging C}
    (hfits : staging.Fits R n count id) {s : Nat}
    (honly : ∀ {j t color}, color ∈ staging.colorsFor R j t → t = s) {packet : Packet C}
    (hpacket : some packet ∈ staging.outgoing) : ∃ a, packet = [(s, a)] := by
  obtain ⟨j, hj⟩ := List.getElem?_of_mem hpacket
  have hlisted := hfits.listed_of_outgoing hj
  have hstate {t : Nat} {a : C} (hmem : (t, a) ∈ packet) : t = s := by
    obtain ⟨_, color, hcolor⟩ := hlisted.within hmem
    exact honly hcolor
  match packet with
  | [] => exact absurd rfl (Staging.ne_nil_of_outgoing hj)
  | [(t, a)] =>
    obtain rfl := hstate List.mem_cons_self
    exact ⟨a, rfl⟩
  | (t, a) :: (u, b) :: rest =>
    have hlt : t < u := List.rel_of_pairwise_cons hlisted.inOrder List.mem_cons_self
    have ht : t = s := hstate List.mem_cons_self
    have hu : u = s := hstate (List.mem_cons_of_mem _ List.mem_cons_self)
    omega

/-- "Some step" fails when there are steps only from a state that is too large for a frame, and all of them
lead to states of another worker. -/
theorem verify_someStep_of_refused {R : Reading c.algebra} {S : Nat → Kripke} (hserves : c.model.Serves R S)
    (hall : Partition.all c.config.strategy c.config.partitions c.model.stateCount = .ok partitions)
    (htransport : c.config.transport = .serialized) (hcount : 1 < c.config.partitions)
    (hhub : c.config.partitions < 0x20000000) {course : Course}
    (hvalid : (Formula.next .some course .top).validate c.model [] = .ok ()) {s : Nat}
    (hlarge : 0x80000000 ≤ s) (i : Fin c.config.partitions) (hfar : c.config.owner c.model.stateCount s ≠ i)
    (honly : ∀ {color t u}, (S color).Leads course t u → t = s ∧ c.config.owner c.model.stateCount u = i)
    (hsome : ∃ color u, (S color).Leads course s u) :
    c.verify (.next .some course .top) = .error (.error (.channel (.stateTooLarge s))) := by
  obtain ⟨T, hstrategy, hmake⟩ := Team.exists_of_all hserves (Nat.lt_of_succ_lt hcount) hall
  have howner : T.owner = c.config.owner c.model.stateCount := by
    funext t
    rw [Team.owner, hstrategy]
  choose staging hout hfits hcolors using fun j => someStep_localMap (T.ready j) course
  have hlast {j : Fin c.config.partitions} {packet : Packet C} (hpacket : some packet ∈ (staging j).outgoing) :
      ∃ a, packet = [(s, a)] :=
    eq_singleton_of_outgoing (hfits j) (fun hcolor => by
      obtain ⟨_, _, _, _, _, hleads⟩ := (hcolors j).1 hcolor
      exact (honly hleads).1) hpacket
  refine verify_of_failed (verifyAll_of_refused hall htransport hcount hhub (by simpa using hvalid)
    (fun j => out?_worker (hmake j) (out?_someStep_top (hout j)) []) i (by simp) ?_ fun j hj => ?_)
  · refine Carrier.prepare_of_refused (hfits i).length_outgoing (fun packet hpacket => ?_) ?_
    · obtain ⟨a, rfl⟩ := hlast hpacket
      exact Frame.encode_of_state_ge hlarge a
    · obtain ⟨color, u, hleads⟩ := hsome
      have hmem : color ∈ (staging i).colorsFor R (c.config.owner c.model.stateCount s) s := by
        refine (hcolors i).2 ⟨hfar, congrFun howner s, u, T.owns_iff.2 ⟨(hserves.lt_of_leads hleads).2, ?_⟩,
          hserves.mem_palette_of_leads hleads, hleads⟩
        rw [howner, (honly hleads).2]
      obtain ⟨packet, hpacket⟩ := Staging.exists_packet hmem
      exact ⟨packet, List.mem_of_getElem? hpacket⟩
  · refine Carrier.prepare_of_nothing _ (hfits j).length_outgoing fun packet hpacket => ?_
    obtain ⟨k, hk⟩ := List.getElem?_of_mem hpacket
    obtain ⟨a, rfl⟩ := hlast hpacket
    obtain ⟨_, color, hcolor⟩ := ((hfits j).listed_of_outgoing hk).within List.mem_cons_self
    obtain ⟨_, _, u, howns, _, hleads⟩ := (hcolors j).1 hcolor
    refine hj (Fin.ext ?_)
    rw [← (T.owns_iff.1 howns).2, howner, (honly hleads).2]

end Steps

end Checker

end ColoredCtl

import ColoredCtl.Proofs.Channel.Calls
import ColoredCtl.Proofs.Channel.Frames

/-!
Refused calls leave no trace.

An endpoint whose call is refused has packed some of what it was to send, and has not come to the hub. So it
has changed nothing that another endpoint can see, and counted nothing. `erase` takes the refused calls out of
what the endpoints do and have done. Each event is an event without the refused calls as well, or belongs to a
refused call and is not seen; and what the endpoints can do without the refused calls they can do after them.
-/

namespace ColoredCtl

open Color

/-- The errors that an endpoint has by itself, before it comes to the hub. -/
def ChannelError.Local : ChannelError → Prop
  | .shape _ _ | .noPeers _ | .stateTooLarge _ | .frame (.tooManyEntries _) => True
  | .frame _ | .aborted | .algebra _ => False

/-- An error of a call, if there is one, is one that the endpoint has by itself. -/
def Failure.Local (failure : Failure ChannelError) : Prop := ∀ cause, failure = .error cause → cause.Local

/-- The failure is an error in what was received. -/
def Failure.OfReading (failure : Failure ChannelError) : Prop :=
  ∃ cause : ChannelError, failure = .error cause ∧ cause.OfReading

theorem Failure.local_misuse (cause : Misuse) : (Failure.misuse cause : Failure ChannelError).Local := by
  intro _ h
  cases h

theorem Failure.local_error {cause : ChannelError} (h : cause.Local) : (Failure.error cause).Local := by
  intro _ heq
  cases heq
  exact h

theorem ChannelError.OfReading.not_local {cause : ChannelError} (h : cause.OfReading) : ¬cause.Local := by
  cases cause with
  | frame cause => cases cause <;> simp_all [OfReading, Local]
  | _ => simp_all [OfReading, Local]

namespace Carrier

variable {C T : Type}

/-- What the endpoint says of a packet that it cannot pack is an error of its own, and what it says of a
payload that it cannot unpack is not. -/
structure Tells (carrier : Carrier C T) : Prop where
  pack : ∀ packet, FailsOnly Failure.Local (carrier.pack packet)
  unpack : ∀ payload, FailsOnly Failure.OfReading (carrier.unpack payload)

theorem tells_plain : (plain : Carrier C (Packet C)).Tells := ⟨fun _ => .of_ok _, fun _ => .of_ok _⟩

theorem tells_framed (A : Algebra C) : (framed A).Tells where
  pack packet := by
    have hentry (entry : Nat × C) : FailsOnly Failure.Local (Frame.encodeEntry A entry) := by
      unfold Frame.encodeEntry
      split
      · exact (FailsOnly.lift Failure.local_misuse _).bind fun bytes => .of_ok _
      · exact .of_error (Failure.local_error trivial)
    change FailsOnly Failure.Local (Frame.encode A packet)
    unfold Frame.encode
    split
    · exact (FailsOnly.mapM fun entry _ => hentry entry).bind fun entries => .of_ok _
    · exact .of_error (Failure.local_error trivial)
  unpack bytes := (Frame.misreads_decode bytes).mapError fun cause h => ⟨cause, rfl, h⟩

/-- A call is refused with an error that the endpoint has by itself. -/
theorem Tells.prepare {carrier : Carrier C T} (h : carrier.Tells) (count : Nat) (out : Outgoing C) :
    FailsOnly Failure.Local (carrier.prepare count out) := by
  by_cases hshape : out.length = count
  · rw [prepare_of_length hshape]
    refine .mapM fun packet _ => ?_
    cases packet with
    | none => exact .of_ok _
    | some packet => exact (h.pack packet).bind fun payload => .of_ok _
  · rw [prepare_of_length_ne hshape]
    exact .of_error (Failure.local_error trivial)

/-- A round gives no error that the endpoint has by itself. -/
theorem Tells.conclude {carrier : Carrier C T} (h : carrier.Tells) {outcome : Outcome T}
    {cause : ChannelError} (hcause : carrier.conclude outcome = .error (.error cause)) : ¬cause.Local := by
  cases outcome with
  | error reason =>
    cases hcause
    exact id
  | ok received =>
    have hfails : FailsOnly Failure.OfReading (carrier.accept received) := by
      cases received with
      | none => exact .of_ok _
      | some parts => exact (FailsOnly.mapM fun payload _ => h.unpack payload).bind fun packets => .of_ok _
    obtain ⟨_, heq, hreading⟩ := hfails _ hcause
    cases heq
    exact hreading.not_local

end Carrier

section

variable {C T : Type}

/-- The endpoint does not go on to the hub with what it still has to pack. -/
def Activity.erase (carrier : Carrier C T) : Activity C T → Activity C T
  | .packing out packed rest =>
    match rest.mapM carrier.packSlot with
    | .ok _ => .packing out packed rest
    | .error _ => .free
  | activity => activity

namespace Activity

variable {carrier : Carrier C T} {out rest : Outgoing C} {packed : Exchange.Row T}

theorem erase_of_ok {more : Exchange.Row T} (h : rest.mapM carrier.packSlot = .ok more) :
    (packing out packed rest).erase carrier = .packing out packed rest := by
  rw [erase, h]

theorem erase_of_error {cause : Failure ChannelError} (h : rest.mapM carrier.packSlot = .error cause) :
    (packing out packed rest).erase carrier = .free := by
  rw [erase, h]

/-- Only a call that is refused is taken out. -/
theorem exists_of_erase_ne {activity : Activity C T} (h : activity.erase carrier ≠ activity) :
    ∃ out packed rest cause, activity = .packing out packed rest ∧
      rest.mapM carrier.packSlot = .error cause := by
  cases activity with
  | free => exact absurd rfl h
  | packing out packed rest =>
    cases hrest : rest.mapM carrier.packSlot with
    | ok more => exact absurd (erase_of_ok hrest) h
    | error cause => exact ⟨out, packed, rest, cause, rfl, hrest⟩
  | meeting out row => exact absurd rfl h

end Activity

end

namespace Endpoints

variable {K : Nat} {C T : Type}

/-- The endpoints without their refused calls. -/
@[simps] def erase (carriers : Fin K → Carrier C T) (e : Endpoints K C T) : Endpoints K C T where
  hub := e.hub
  activity := fun i => (e.activity i).erase (carriers i)
  traffic := e.traffic
  replies := fun i => (e.results i).map .met

/-- The event belongs to a refused call. -/
def Refused (carriers : Fin K → Carrier C T) (e : Endpoints K C T) : Event K C → Prop
  | .call i out => ∃ cause, (carriers i).prepare K out = .error cause
  | .step i => e.activity i ≠ .free ∧ (e.activity i).erase (carriers i) = .free
  | .abort => False

variable {carriers : Fin K → Carrier C T} {e e' : Endpoints K C T} {event : Event K C} {i : Fin K}

theorem erase_turnTo (activity : Activity C T) :
    (e.turnTo i activity).erase carriers = (e.erase carriers).turnTo i (activity.erase (carriers i)) := by
  ext1
  case activity =>
    funext j
    exact Function.apply_update (fun j => Activity.erase (carriers j)) e.activity i activity j
  all_goals rfl

theorem erase_refuse (cause : Failure ChannelError) :
    (e.reply i (.refused cause)).erase carriers = (e.erase carriers).turnTo i .free := by
  ext1
  case activity =>
    funext j
    exact Function.apply_update (fun j => Activity.erase (carriers j)) e.activity i .free j
  case replies =>
    funext j
    rw [erase_replies, results_refuse]
    rfl
  all_goals rfl

theorem erase_leave (out : Outgoing C) (outcome : Outcome T) :
    (leave carriers e i out outcome).erase carriers = leave carriers (e.erase carriers) i out outcome := by
  ext1
  case activity =>
    funext j
    exact Function.apply_update (fun j => Activity.erase (carriers j)) e.activity i .free j
  case replies =>
    funext j
    rw [erase_replies, results_leave, Function.apply_update (fun _ => List.map Reply.met), List.map_append]
    rfl
  all_goals rfl

@[simp] theorem results_erase : (e.erase carriers).results = e.results := by
  funext j
  simp [results, List.filterMap_map, Function.comp_def, Reply.met?]

/-- An endpoint that does what it does already. -/
theorem turnTo_self {activity : Activity C T} (h : e.activity i = activity) : e.turnTo i activity = e := by
  rw [turnTo, ← h, Function.update_eq_self]

theorem not_refused_step (h : (e.activity i).erase (carriers i) ≠ .free) : ¬Refused carriers e (.step i) :=
  fun hrefused => h hrefused.2

/-- Each event belongs to a refused call and is not seen, or is an event without the refused calls as well. -/
theorem Turn.erase (hturn : Turn carriers e event e') :
    Refused carriers e event ∧ e'.erase carriers = e.erase carriers ∨
      ¬Refused carriers e event ∧ Turn carriers (e.erase carriers) event (e'.erase carriers) := by
  cases hturn with
  | abort => exact .inr ⟨id, .abort⟩
  | @misshapen i out hfree hshape =>
    refine .inl ⟨⟨_, Carrier.prepare_of_length_ne hshape⟩, ?_⟩
    rw [erase_refuse, turnTo_self (by rw [erase_activity, hfree]; rfl)]
  | @begin i out hfree hshape =>
    have hprepare : (carriers i).prepare K out = out.mapM (carriers i).packSlot :=
      Carrier.prepare_of_length hshape
    have hidle : (e.erase carriers).activity i = .free := by
      rw [erase_activity, hfree]
      rfl
    rw [erase_turnTo]
    cases hpack : out.mapM (carriers i).packSlot with
    | error cause =>
      refine .inl ⟨⟨cause, hprepare.trans hpack⟩, ?_⟩
      rw [Activity.erase_of_error hpack, turnTo_self hidle]
    | ok row =>
      refine .inr ⟨fun ⟨cause, hcause⟩ => ?_, ?_⟩
      · rw [hprepare, hpack] at hcause
        cases hcause
      · rw [Activity.erase_of_ok hpack]
        exact .begin hidle hshape
  | @pack i out rest packed packet payload hactivity hpack =>
    have hmapM : (packet :: rest).mapM (carriers i).packSlot =
        (rest.mapM (carriers i).packSlot).map (payload :: ·) := by
      rw [List.mapM_cons, hpack]
      cases rest.mapM (carriers i).packSlot <;> rfl
    rw [erase_turnTo]
    cases hrest : rest.mapM (carriers i).packSlot with
    | error cause =>
      rw [hrest] at hmapM
      have hidle : (e.activity i).erase (carriers i) = .free := by
        rw [hactivity, Activity.erase_of_error hmapM]
      refine .inl ⟨⟨by simp [hactivity], hidle⟩, ?_⟩
      rw [Activity.erase_of_error hrest, turnTo_self hidle]
    | ok more =>
      rw [hrest] at hmapM
      have hbusy : (e.activity i).erase (carriers i) = .packing out packed (packet :: rest) := by
        rw [hactivity, Activity.erase_of_ok hmapM]
      refine .inr ⟨not_refused_step (by rw [hbusy]; simp), ?_⟩
      rw [Activity.erase_of_ok hrest]
      exact .pack hbusy hpack
  | @refuse i out rest packed packet cause hactivity hpack =>
    have hmapM : (packet :: rest).mapM (carriers i).packSlot = .error cause := by
      rw [List.mapM_cons, hpack]
      rfl
    have hidle : (e.activity i).erase (carriers i) = .free := by
      rw [hactivity, Activity.erase_of_error hmapM]
    refine .inl ⟨⟨by simp [hactivity], hidle⟩, ?_⟩
    rw [erase_refuse, turnTo_self hidle]
  | @enter i out packed hactivity =>
    have hbusy : (e.activity i).erase (carriers i) = .packing out packed [] := by
      rw [hactivity, Activity.erase_of_ok List.mapM_nil]
    refine .inr ⟨not_refused_step (by rw [hbusy]; simp), ?_⟩
    rw [erase_turnTo]
    exact .enter hbusy
  | @inside i out row hub hactivity hmove hlog =>
    have hbusy : (e.activity i).erase (carriers i) = .meeting out row := by
      rw [hactivity]
      rfl
    exact .inr ⟨not_refused_step (by rw [hbusy]; simp), .inside hbusy hmove hlog⟩
  | @leave i out row hub outcome hactivity hmove hlog =>
    have hbusy : (e.activity i).erase (carriers i) = .meeting out row := by
      rw [hactivity]
      rfl
    refine .inr ⟨not_refused_step (by rw [hbusy]; simp), ?_⟩
    rw [erase_leave]
    exact .leave (e := e.erase carriers) hbusy hmove hlog

theorem acceptedOf?_of_refused (h : Refused carriers e event) (j : Fin K) :
    acceptedOf? carriers j event = none := by
  cases event with
  | call i out =>
    obtain ⟨cause, hcause⟩ := h
    refine if_neg ?_
    rintro ⟨rfl, hok⟩
    rw [hcause] at hok
    cases hok
  | step i => rfl
  | abort => rfl

/-- What the endpoints do, they do without the refused calls as well. -/
theorem run_erase {events : List (Event K C)} (hrun : e.run carriers events = some e') :
    ∃ others, others.Sublist events ∧
      (∀ i out, .call i out ∈ others → ∃ row, (carriers i).prepare K out = .ok row) ∧
      accepted carriers others = accepted carriers events ∧
      (e.erase carriers).run carriers others = some (e'.erase carriers) := by
  induction events generalizing e with
  | nil =>
    cases hrun
    exact ⟨[], .refl _, by simp, rfl, rfl⟩
  | cons event events ih =>
    obtain ⟨mid, hturn, hrest⟩ := run_cons.1 hrun
    obtain ⟨others, hsub, hfit, haccepted, hothers⟩ := ih hrest
    obtain ⟨hrefused, hsame⟩ | ⟨haccept, hturn⟩ := hturn.erase
    · refine ⟨others, hsub.cons event, hfit, ?_, hsame ▸ hothers⟩
      funext j
      rw [haccepted, accepted, accepted, List.filterMap_cons, acceptedOf?_of_refused hrefused]
    · refine ⟨event :: others, hsub.cons_cons event, ?_, ?_, run_cons.2 ⟨_, hturn, hothers⟩⟩
      · intro i out hcall
        rcases List.mem_cons.1 hcall with rfl | hcall
        · cases hprepare : (carriers i).prepare K out with
          | ok row => exact ⟨row, rfl⟩
          | error cause => exact absurd ⟨cause, hprepare⟩ haccept
        · exact hfit i out hcall
      · funext j
        have hj := congrFun haccepted j
        rw [accepted] at hj ⊢
        rw [accepted, List.filterMap_cons, List.filterMap_cons, hj, accepted]

/-- No event of a refused call changes the hub, what an endpoint has counted, or what it has of its rounds. -/
theorem Turn.eq_of_refused (hturn : Turn carriers e event e') (hrefused : Refused carriers e event) :
    e'.hub = e.hub ∧ e'.traffic = e.traffic ∧ e'.results = e.results := by
  obtain ⟨_, hsame⟩ | ⟨haccept, _⟩ := hturn.erase
  · have hhub : (e'.erase carriers).hub = (e.erase carriers).hub := by rw [hsame]
    have htraffic : (e'.erase carriers).traffic = (e.erase carriers).traffic := by rw [hsame]
    have hresults : (e'.erase carriers).results = (e.erase carriers).results := by rw [hsame]
    rw [results_erase, results_erase] at hresults
    exact ⟨hhub, htraffic, hresults⟩
  · exact absurd hrefused haccept

/-- An endpoint that cannot pack what is left comes to say so. -/
theorem run_of_packing {out packed rest} {cause : Failure ChannelError}
    (hactivity : e.activity i = .packing out packed rest)
    (hrest : rest.mapM (carriers i).packSlot = .error cause) :
    ∃ steps, e.run carriers (List.replicate steps (.step i)) = some (e.reply i (.refused cause)) := by
  induction rest generalizing e packed with
  | nil => cases hrest
  | cons packet rest ih =>
    rw [List.mapM_cons] at hrest
    cases hpack : (carriers i).packSlot packet with
    | error found =>
      rw [hpack] at hrest
      cases hrest
      exact ⟨1, run_cons.2 ⟨_, .refuse hactivity hpack, rfl⟩⟩
    | ok payload =>
      have hmore : rest.mapM (carriers i).packSlot = .error cause := by
        rw [hpack, ok_bind] at hrest
        cases hmapM : rest.mapM (carriers i).packSlot with
        | error found =>
          rw [hmapM] at hrest
          exact hrest
        | ok more =>
          rw [hmapM] at hrest
          cases hrest
      obtain ⟨steps, hsteps⟩ := ih (e := e.turnTo i (.packing out (packed ++ [payload]) rest))
        (Function.update_self ..) hmore
      refine ⟨steps + 1, run_cons.2 ⟨_, .pack hactivity hpack, ?_⟩⟩
      rw [hsteps]
      simp [reply, turnTo]

/-- Nothing but their refused calls tells the endpoints apart. -/
structure Alike (e k : Endpoints K C T) : Prop where
  hub_eq : e.hub = k.hub
  activity_eq : e.activity = k.activity
  traffic_eq : e.traffic = k.traffic
  results_eq : e.results = k.results

namespace Alike

variable {k k' : Endpoints K C T}

theorem symm (h : Alike e k) : Alike k e :=
  ⟨h.hub_eq.symm, h.activity_eq.symm, h.traffic_eq.symm, h.results_eq.symm⟩

theorem turnTo (h : Alike e k) (activity : Activity C T) :
    Alike (e.turnTo i activity) (k.turnTo i activity) where
  hub_eq := h.hub_eq
  activity_eq := by
    change Function.update e.activity i activity = Function.update k.activity i activity
    rw [h.activity_eq]
  traffic_eq := h.traffic_eq
  results_eq := h.results_eq

theorem refuse (h : Alike e k) (cause : Failure ChannelError) :
    Alike (e.reply i (.refused cause)) (k.reply i (.refused cause)) where
  hub_eq := h.hub_eq
  activity_eq := (h.turnTo .free).activity_eq
  traffic_eq := h.traffic_eq
  results_eq := by rw [results_refuse, results_refuse, h.results_eq]

theorem setHub (h : Alike e k) (hub : Hub K T) : Alike { e with hub } { k with hub } :=
  ⟨rfl, h.activity_eq, h.traffic_eq, h.results_eq⟩

theorem leave (h : Alike e k) (out : Outgoing C) (outcome : Outcome T) :
    Alike (leave carriers e i out outcome) (Endpoints.leave carriers k i out outcome) where
  hub_eq := h.hub_eq
  activity_eq := (h.turnTo .free).activity_eq
  traffic_eq := by
    change Function.update e.traffic i _ = Function.update k.traffic i _
    rw [h.traffic_eq]
  results_eq := by rw [results_leave, results_leave, h.results_eq]

/-- What happens to one can happen to the other. -/
theorem turn (h : Alike e k) (hturn : Turn carriers e event e') :
    ∃ k', Turn carriers k event k' ∧ Alike e' k' := by
  have hactivity (i : Fin K) : e.activity i = k.activity i := congrFun h.activity_eq i
  cases hturn with
  | abort => exact ⟨_, .abort, h.hub_eq ▸ h.setHub _⟩
  | misshapen hfree hshape => exact ⟨_, .misshapen (hactivity _ ▸ hfree) hshape, h.refuse _⟩
  | begin hfree hshape => exact ⟨_, .begin (hactivity _ ▸ hfree) hshape, h.turnTo _⟩
  | pack hpacking hpack => exact ⟨_, .pack (hactivity _ ▸ hpacking) hpack, h.turnTo _⟩
  | refuse hpacking hpack => exact ⟨_, .refuse (hactivity _ ▸ hpacking) hpack, h.refuse _⟩
  | enter hpacking => exact ⟨_, .enter (hactivity _ ▸ hpacking), h.turnTo _⟩
  | inside hmeeting hmove hlog =>
    rw [h.hub_eq] at hmove hlog
    exact ⟨_, .inside (hactivity _ ▸ hmeeting) hmove hlog, h.setHub _⟩
  | leave hmeeting hmove hlog =>
    rw [h.hub_eq] at hmove hlog
    exact ⟨_, .leave (hactivity _ ▸ hmeeting) hmove hlog, (h.setHub _).leave _ _⟩

theorem run {events : List (Event K C)} (h : Alike e k) (hrun : e.run carriers events = some e') :
    ∃ k', k.run carriers events = some k' ∧ Alike e' k' := by
  induction events generalizing e k with
  | nil =>
    cases hrun
    exact ⟨k, rfl, h⟩
  | cons event events ih =>
    obtain ⟨mid, hturn, hrest⟩ := run_cons.1 hrun
    obtain ⟨mid', hturn', hmid⟩ := h.turn hturn
    obtain ⟨k', hrun', hend⟩ := ih hmid hrest
    exact ⟨k', run_cons.2 ⟨mid', hturn', hrun'⟩, hend⟩

/-- The same can happen to both, and they stay alike. -/
theorem rel_run (h : Alike e k) (events : List (Event K C)) :
    Option.Rel Alike (e.run carriers events) (k.run carriers events) := by
  cases hrun : e.run carriers events with
  | some e' =>
    obtain ⟨k', hrun', hend⟩ := h.run hrun
    rw [hrun']
    exact .some hend
  | none =>
    cases hrun' : k.run carriers events with
    | some k' =>
      obtain ⟨e', hfound, _⟩ := h.symm.run hrun'
      rw [hrun] at hfound
      cases hfound
    | none => exact .none

end Alike

/-- A call that is refused is answered, and nothing else happens, then and later. -/
theorem run_of_refused {out : Outgoing C} {cause : Failure ChannelError} (hfree : e.activity i = .free)
    (hrefused : (carriers i).prepare K out = .error cause) :
    ∃ steps after, e.run carriers (.call i out :: List.replicate steps (.step i)) = some after ∧
      after = { e with replies := Function.update e.replies i (e.replies i ++ [.refused cause]) } ∧
      ∀ events, Option.Rel Alike (e.run carriers events) (after.run carriers events) := by
  have hreply : e.reply i (.refused cause) =
      { e with replies := Function.update e.replies i (e.replies i ++ [.refused cause]) } := by
    rw [reply, ← hfree, Function.update_eq_self]
  have halike : Alike e (e.reply i (.refused cause)) :=
    ⟨rfl, by rw [hreply], rfl, (results_refuse i cause).symm⟩
  have hanswered : ∃ steps, e.run carriers (.call i out :: List.replicate steps (.step i)) =
      some (e.reply i (.refused cause)) := by
    by_cases hshape : out.length = K
    · rw [Carrier.prepare_of_length hshape] at hrefused
      obtain ⟨steps, hsteps⟩ :=
        run_of_packing (e := e.turnTo i (.packing out [] out)) (Function.update_self ..) hrefused
      refine ⟨steps, run_cons.2 ⟨_, .begin hfree hshape, ?_⟩⟩
      rw [hsteps]
      simp [reply, turnTo]
    · rw [Carrier.prepare_of_length_ne hshape] at hrefused
      cases hrefused
      exact ⟨0, run_cons.2 ⟨_, .misshapen hfree hshape, rfl⟩⟩
  obtain ⟨steps, hsteps⟩ := hanswered
  exact ⟨steps, _, hsteps, hreply, halike.rel_run⟩

/-- One endpoint goes on with its call until it is refused, if it is going to be. -/
theorem exists_erase_at (carriers : Fin K → Carrier C T) (e : Endpoints K C T) (i : Fin K) :
    ∃ steps e', e.run carriers (List.replicate steps (.step i)) = some e' ∧
      e'.hub = e.hub ∧ e'.traffic = e.traffic ∧ e'.results = e.results ∧
      e'.activity = Function.update e.activity i ((e.activity i).erase (carriers i)) := by
  by_cases hsame : (e.activity i).erase (carriers i) = e.activity i
  · refine ⟨0, e, rfl, rfl, rfl, rfl, ?_⟩
    rw [hsame, Function.update_eq_self]
  · obtain ⟨out, packed, rest, cause, hpacking, hrest⟩ := Activity.exists_of_erase_ne hsame
    obtain ⟨steps, hsteps⟩ := run_of_packing hpacking hrest
    refine ⟨steps, e.reply i (.refused cause), hsteps, rfl, rfl, results_refuse i cause, ?_⟩
    rw [hpacking, Activity.erase_of_error hrest]
    rfl

/-- Some endpoints go on with their calls, one after the other. The rest are as they were. -/
theorem exists_erase_among (carriers : Fin K → Carrier C T) (e : Endpoints K C T) {l : List (Fin K)}
    (hnodup : l.Nodup) : ∃ events e', (∀ event ∈ events, ∃ i, event = .step i) ∧
      e.run carriers events = some e' ∧ e'.hub = e.hub ∧ e'.traffic = e.traffic ∧ e'.results = e.results ∧
      ∀ i, e'.activity i = if i ∈ l then (e.activity i).erase (carriers i) else e.activity i := by
  induction l with
  | nil => exact ⟨[], e, by simp, rfl, rfl, rfl, rfl, by simp⟩
  | cons i l ih =>
    obtain ⟨hi, hnodup⟩ := List.nodup_cons.1 hnodup
    obtain ⟨events, mid, honly, hrun, hhub, htraffic, hresults, hactivity⟩ := ih hnodup
    obtain ⟨steps, e', hsteps, hhub', htraffic', hresults', hactivity'⟩ := exists_erase_at carriers mid i
    refine ⟨events ++ List.replicate steps (.step i), e', ?_, ?_, hhub'.trans hhub, htraffic'.trans htraffic,
      hresults'.trans hresults, fun j => ?_⟩
    · intro event hevent
      rcases List.mem_append.1 hevent with hevent | hevent
      · exact honly event hevent
      · exact ⟨i, List.eq_of_mem_replicate hevent⟩
    · rw [run_append, hrun]
      exact hsteps
    · rw [hactivity']
      by_cases hj : j = i
      · subst hj
        rw [Function.update_self, if_pos List.mem_cons_self, hactivity, if_neg hi]
      · rw [Function.update_of_ne hj, hactivity]
        simp [hj]

/-- The endpoints come to be without refused calls, if those that have one go on with it. -/
theorem exists_alike_erase (carriers : Fin K → Carrier C T) (e : Endpoints K C T) :
    ∃ events e', (∀ event ∈ events, ∃ i, event = .step i) ∧ e.run carriers events = some e' ∧
      Alike (e.erase carriers) e' := by
  obtain ⟨events, e', hsteps, hrun, hhub, htraffic, hresults, hactivity⟩ :=
    exists_erase_among carriers e (List.nodup_finRange K)
  refine ⟨events, e', hsteps, hrun, hhub.symm, ?_, htraffic.symm, ?_⟩
  · funext i
    rw [hactivity, if_pos (List.mem_finRange i), erase_activity]
  · rw [results_erase, hresults]

/-- A reply with an error that an endpoint has by itself says that the call was refused. -/
theorem refused_of_local {events : List (Event K C)} (htells : ∀ i, (carriers i).Tells)
    (hrun : (start K C T).run carriers events = some e) {reply : Reply C} (hreply : reply ∈ e.replies i)
    {cause : ChannelError} (hanswer : reply.answer = .error (.error cause)) (hlocal : cause.Local) :
    reply = .refused (.error cause) := by
  cases reply with
  | refused found =>
    cases hanswer
    rfl
  | met answer =>
    have hmem : answer ∈ e.results i := List.mem_filterMap.2 ⟨_, hreply, rfl⟩
    rw [(tracks_of_run hrun).results_eq] at hmem
    obtain ⟨outcome, _, rfl⟩ := List.mem_map.1 hmem
    exact absurd hlocal ((htells i).conclude hanswer)

/-- Calls that are refused leave no trace. -/
structure ForgetsRefusals (carriers : Fin K → Carrier C T) : Prop where
  local_of_refused : ∀ {i : Fin K} {out cause},
    (carriers i).prepare K out = .error (.error cause) → cause.Local
  refused_of_local : ∀ {events e i reply cause}, (start K C T).run carriers events = some e →
    reply ∈ e.replies i → reply.answer = .error (.error cause) → cause.Local → reply = .refused (.error cause)
  /-- Whatever the hub and the other endpoints are about, the call is answered and all else is as before. All
  that can follow is as if the call had not been made. -/
  run_of_refused : ∀ {e : Endpoints K C T} {i out cause}, e.activity i = .free →
    (carriers i).prepare K out = .error cause →
    ∃ steps after, e.run carriers (.call i out :: List.replicate steps (.step i)) = some after ∧
      after = { e with replies := Function.update e.replies i (e.replies i ++ [.refused cause]) } ∧
      ∀ events, Option.Rel Alike (e.run carriers events) (after.run carriers events)
  /-- The same holds at each step of the call, with other endpoints taking steps in between. -/
  eq_of_refused : ∀ {e e' : Endpoints K C T} {event}, e.next carriers event = some e' →
    Refused carriers e event → e'.hub = e.hub ∧ e'.traffic = e.traffic ∧ e'.results = e.results
  /-- What happens, happens without the refused calls as well. -/
  run_erase : ∀ {e e' : Endpoints K C T} {events}, e.run carriers events = some e' →
    ∃ others, others.Sublist events ∧
    (∀ i out, .call i out ∈ others → ∃ row, (carriers i).prepare K out = .ok row) ∧
    accepted carriers others = accepted carriers events ∧
    (e.erase carriers).run carriers others = some (e'.erase carriers)
  /-- What can happen without the refused calls can happen after them. -/
  run_of_erase : ∀ {e k : Endpoints K C T} {events}, (e.erase carriers).run carriers events = some k →
    ∃ before e', (∀ event ∈ before, ∃ i, event = .step i) ∧
      e.run carriers (before ++ events) = some e' ∧ Alike k e'
  /-- What an endpoint has of a round is what the calls that were not refused give in a collective round. -/
  result_of_run : ∀ {events e} {i : Fin K} {r : Nat} {answer}, (start K C T).run carriers events = some e →
    (e.results i)[r]? = some answer →
    (∃ outs : Fin K → Outgoing C, (∀ j, (accepted carriers events j)[r]? = some (outs j)) ∧
      (meet (List.ofFn carriers) false (List.ofFn fun j => some (outs j)))[i.val]? = some answer) ∨
    answer = .error (.error .aborted) ∧ .abort ∈ events

theorem forgetsRefusals (htells : ∀ i, (carriers i).Tells) : ForgetsRefusals carriers where
  local_of_refused {i out cause} hcause := (htells i).prepare K out _ hcause cause rfl
  refused_of_local hrun hreply hanswer hlocal := Endpoints.refused_of_local htells hrun hreply hanswer hlocal
  run_of_refused := run_of_refused
  eq_of_refused hnext := (Turn.of_next hnext).eq_of_refused
  run_erase := run_erase
  run_of_erase {e k events} hrun := by
    obtain ⟨before, mid, hsteps, hbefore, halike⟩ := exists_alike_erase carriers e
    obtain ⟨e', hrest, hend⟩ := halike.run hrun
    refine ⟨before, e', hsteps, ?_, hend⟩
    rw [run_append, hbefore]
    exact hrest
  result_of_run hrun hfound := result_of_run hrun hfound

end Endpoints

namespace Channel

variable {C : Type}

/-- The calls of the only endpoint of a channel, one after the other: the channel behind them, and what they
give. -/
def calls : Channel C → List (Outgoing C) → Channel C × List (Answer C)
  | channel, [] => (channel, [])
  | channel, out :: outs =>
    let first := channel.round [some out]
    let rest := first.1.calls outs
    (rest.1, first.2 ++ rest.2)

/-- What the only endpoint of a channel counts. -/
def countAlone (t : Traffic) (out : Outgoing C) : Traffic := count .solo t (some out) (Medium.alone out)

/-- Each call of the only endpoint is answered and counted by itself. -/
theorem calls_solo (t : Traffic) (aborted : Bool) (outs : List (Outgoing C)) :
    (⟨.solo, [t], aborted⟩ : Channel C).calls outs =
      (⟨.solo, [outs.foldl countAlone t], aborted⟩, outs.map Medium.alone) := by
  induction outs generalizing t with
  | nil => rfl
  | cons out outs ih =>
    have hround : (⟨.solo, [t], aborted⟩ : Channel C).round [some out] =
        (⟨.solo, [countAlone t out], aborted⟩, [Medium.alone out]) := rfl
    simp only [calls, hround, ih]
    rfl

/-- The only endpoint counts nothing of a call that is refused. -/
theorem foldl_countAlone (t : Traffic) (outs : List (Outgoing C)) :
    (outs.filter fun out => (Medium.alone out).isOk).foldl countAlone t = outs.foldl countAlone t := by
  induction outs generalizing t with
  | nil => rfl
  | cons out outs ih =>
    cases hanswer : Medium.alone out with
    | ok incoming => rw [List.filter_cons_of_pos (by rw [hanswer]; rfl), List.foldl_cons, List.foldl_cons, ih]
    | error cause =>
      rw [List.filter_cons_of_neg (by rw [hanswer]; exact Bool.false_ne_true), List.foldl_cons, ih]
      rw [countAlone, hanswer, count]

/-- The only endpoint refuses calls with errors that it has by itself. -/
theorem local_of_alone {out : Outgoing C} {failure : Failure ChannelError}
    (h : Medium.alone out = .error failure) : ∃ cause : ChannelError, failure = .error cause ∧ cause.Local := by
  unfold Medium.alone at h
  split at h
  · cases h
    exact ⟨_, rfl, trivial⟩
  · split at h
    · cases h
      exact ⟨_, rfl, trivial⟩
    · cases h

/-- Calls that the only endpoint of a channel refuses leave no trace. -/
structure ForgetsRefusals (channel : Channel C) : Prop where
  round_of_refused : ∀ {out failure}, Medium.alone out = .error failure →
    (∃ cause : ChannelError, failure = .error cause ∧ cause.Local) ∧
    channel.round [some out] = (channel, [.error failure])
  calls_accepted : ∀ outs : List (Outgoing C),
    channel.calls (outs.filter fun out => (Medium.alone out).isOk) =
      ((channel.calls outs).1, (channel.calls outs).2.filter Except.isOk)

theorem forgetsRefusals_solo (t : Traffic) (aborted : Bool) :
    (⟨.solo, [t], aborted⟩ : Channel C).ForgetsRefusals where
  round_of_refused {out failure} h := by
    refine ⟨local_of_alone h, ?_⟩
    have hround : (⟨.solo, [t], aborted⟩ : Channel C).round [some out] =
        (⟨.solo, [countAlone t out], aborted⟩, [Medium.alone out]) := rfl
    rw [hround, countAlone, h, count]
  calls_accepted outs := by
    rw [calls_solo, calls_solo, foldl_countAlone, List.filter_map]
    rfl

end Channel

/-- An endpoint whose call is refused with an error of its own has changed nothing, be it one of several that
share memory, one of several that write frames, or the only one. So all rounds give what they would have given
without the call. -/
theorem refused_calls_leave_no_trace {K : Nat} {C : Type} (algebras : Fin K → Algebra C) :
    Endpoints.ForgetsRefusals (fun _ : Fin K => (Carrier.plain : Carrier C (Packet C))) ∧
    Endpoints.ForgetsRefusals (fun i => Carrier.framed (algebras i)) ∧
    ∀ (t : Traffic) (aborted : Bool), (⟨.solo, [t], aborted⟩ : Channel C).ForgetsRefusals :=
  ⟨Endpoints.forgetsRefusals fun _ => Carrier.tells_plain,
    Endpoints.forgetsRefusals fun i => Carrier.tells_framed (algebras i), Channel.forgetsRefusals_solo⟩

/-- One of two endpoints asks to send a state that does not fit a frame, and then another one. -/
def secondAttempt (first second : Fin 2) : List (Event 2 Bool) :=
  List.flatten
    [[.call first [none, some [(0x80000000, true)]], .step first, .step first],
      [.call first [none, some [(7, true)]], .call second [none, none]],
      List.replicate 8 (.step first), List.replicate 7 (.step second), List.replicate 5 (.step first),
      List.replicate 4 (.step second), List.replicate 5 (.step first), List.replicate 3 (.step second),
      [.step first]]

/-- The other endpoint gets what was sent with the second attempt, as without the first one. -/
theorem refused_calls_leave_no_trace_secondAttempt : ∃ e : Endpoints 2 Bool (List UInt8),
    (Endpoints.start 2 Bool (List UInt8)).run (fun _ => .framed Algebra.truth) (secondAttempt 0 1) = some e ∧
    (e.replies 0).map Reply.answer = [.error (.error (.stateTooLarge 0x80000000)), .ok (some [])] ∧
    e.results 1 = [.ok (some [(7, true)])] ∧
    ∃ others, others.Sublist (secondAttempt 0 1) ∧
      (∀ i out, .call i out ∈ others → ∃ row, (Carrier.framed Algebra.truth).prepare 2 out = .ok row) ∧
      ∃ e' : Endpoints 2 Bool (List UInt8),
        (Endpoints.start 2 Bool (List UInt8)).run (fun _ => .framed Algebra.truth) others = some e' ∧
        e'.hub = e.hub ∧ e'.traffic = e.traffic ∧ e'.results = e.results := by
  have hreplies :
      ((Endpoints.start 2 Bool (List UInt8)).run (fun _ => .framed Algebra.truth) (secondAttempt 0 1)).map
        (fun e => (e.replies 0).map Reply.answer) =
      some [.error (.error (.stateTooLarge 0x80000000)), .ok (some [])] := by decide +kernel
  have hresults :
      ((Endpoints.start 2 Bool (List UInt8)).run (fun _ => .framed Algebra.truth) (secondAttempt 0 1)).map
        (fun e => e.results 1) = some [.ok (some [(7, true)])] := by decide +kernel
  obtain ⟨e, hrun, hfirst⟩ := Option.map_eq_some_iff.1 hreplies
  rw [hrun] at hresults
  have hsecond := Option.some.inj hresults
  obtain ⟨others, hsub, hfit, _, hothers⟩ :=
    (refused_calls_leave_no_trace fun _ : Fin 2 => Algebra.truth).2.1.run_erase hrun
  exact ⟨e, hrun, hfirst, hsecond, others, hsub, hfit, _, hothers, rfl, rfl, Endpoints.results_erase⟩

end ColoredCtl

import ColoredCtl.Channel.Medium
import ColoredCtl.Proofs.Hub.Outcomes

/-!
The calls of endpoints that share a hub, step by step.

An endpoint makes its calls one after the other. In a call it packs what it sends, destination by
destination. Then it goes through a round of the hub with the packed row, unpacks what it got there, and
counts what it sent and received. A call that has not the right number of destinations, or that has a packet
that cannot be packed, is refused before the endpoint comes to the hub.

What an endpoint does to itself or to the hub at once is an event, and the events of different endpoints may
follow each other in any order. `next` says what an event leads to, and `Turn` what an event can be. The
results of the rounds are those of the calls that were not refused, taken by themselves.
-/

namespace ColoredCtl

/-- What a call gives. -/
abbrev Answer (C : Type) := Except (Failure ChannelError) (Incoming C)

namespace Carrier

variable {C T : Type}

/-- Packs what is sent to one destination. -/
def packSlot (carrier : Carrier C T) : Option (Packet C) → Except (Failure ChannelError) (Option T)
  | none => return none
  | some packet => return some (← carrier.pack packet)

theorem prepare_of_length {carrier : Carrier C T} {count : Nat} {out : Outgoing C} (h : out.length = count) :
    carrier.prepare count out = out.mapM carrier.packSlot := by
  rw [prepare, if_neg (not_not.2 h)]
  rfl

theorem prepare_of_length_ne {carrier : Carrier C T} {count : Nat} {out : Outgoing C}
    (h : out.length ≠ count) : carrier.prepare count out = .error (.error (.shape count out.length)) := by
  rw [prepare, if_pos h]
  rfl

/-- A row has a place for each destination. -/
theorem length_of_prepare {carrier : Carrier C T} {count : Nat} {out : Outgoing C} {row : Exchange.Row T}
    (h : carrier.prepare count out = .ok row) : row.length = count := by
  by_cases hshape : out.length = count
  · rw [prepare_of_length hshape] at h
    rw [length_of_mapM_eq_ok h, hshape]
  · rw [prepare_of_length_ne hshape] at h
    cases h

/-- What a round gives to an endpoint. -/
def conclude (carrier : Carrier C T) : Outcome T → Answer C
  | .ok received => carrier.accept received
  | .error .aborted => .error (.error .aborted)

end Carrier

/-- What an endpoint has of a call. -/
inductive Reply (C : Type) where
  /-- The call was refused, and the endpoint took part in no round. -/
  | refused (cause : Failure ChannelError)
  /-- The endpoint took part in a round. -/
  | met (answer : Answer C)

namespace Reply

variable {C : Type}

def answer : Reply C → Answer C
  | .refused cause => .error cause
  | .met answer => answer

def met? : Reply C → Option (Answer C)
  | .refused _ => none
  | .met answer => some answer

end Reply

/-- What an endpoint is doing. -/
inductive Activity (C T : Type) where
  /-- Between two calls. -/
  | free
  /-- Packing what it sends: what is packed, and what is still to be packed. -/
  | packing (out : Outgoing C) (packed : Exchange.Row T) (rest : Outgoing C)
  /-- In a round of the hub, with a packed row. -/
  | meeting (out : Outgoing C) (row : Exchange.Row T)

/-- A hub and the endpoints that share it, with what they have counted and the replies to their calls. -/
@[ext] structure Endpoints (K : Nat) (C T : Type) where
  hub : Hub K T
  activity : Fin K → Activity C T
  traffic : Fin K → Traffic
  replies : Fin K → List (Reply C)

/-- What can happen to endpoints. -/
inductive Event (K : Nat) (C : Type) where
  /-- An endpoint makes a call. -/
  | call (i : Fin K) (out : Outgoing C)
  /-- An endpoint goes on with its call. -/
  | step (i : Fin K)
  /-- Somebody aborts the hub. -/
  | abort

/-- What a row has for the receivers. -/
def Exchange.Row.payloads {K : Nat} {T : Type} (row : Exchange.Row T) : Payloads K T :=
  fun _ _ receiver => row[receiver.val]?.join

theorem Exchange.Row.ofFn_payloads {K : Nat} {T : Type} {row : Exchange.Row T} (h : row.length = K) (r : Nat)
    (i : Fin K) : List.ofFn (row.payloads r i) = row := by
  apply List.ext_getElem
  · rw [List.length_ofFn, h]
  · intro receiver _ hreceiver
    simp [payloads, List.getElem?_eq_getElem hreceiver]

namespace Endpoints

variable {K : Nat} {C T : Type}

/-- Before the first call. -/
def start (K : Nat) (C T : Type) : Endpoints K C T where
  hub := .start K T
  activity := fun _ => .free
  traffic := fun _ => {}
  replies := fun _ => []

@[simps] def turnTo (e : Endpoints K C T) (i : Fin K) (activity : Activity C T) : Endpoints K C T :=
  { e with activity := Function.update e.activity i activity }

/-- The endpoint ends its call. -/
@[simps] def reply (e : Endpoints K C T) (i : Fin K) (reply : Reply C) : Endpoints K C T :=
  { e with activity := Function.update e.activity i .free
           replies := Function.update e.replies i (e.replies i ++ [reply]) }

/-- The endpoint counts what it has sent and received. -/
@[simps] def count (e : Endpoints K C T) (i : Fin K) (out : Outgoing C) (answer : Answer C) :
    Endpoints K C T :=
  { e with
    traffic := Function.update e.traffic i (Channel.count (.shared K) (e.traffic i) (some out) answer) }

/-- What an endpoint has of the rounds in which it took part. -/
def results (e : Endpoints K C T) (i : Fin K) : List (Answer C) := (e.replies i).filterMap Reply.met?

variable (carriers : Fin K → Carrier C T)

/-- The endpoint comes out of the round with an outcome. -/
def leave (e : Endpoints K C T) (i : Fin K) (out : Outgoing C) (outcome : Outcome T) : Endpoints K C T :=
  (e.count i out ((carriers i).conclude outcome)).reply i (.met ((carriers i).conclude outcome))

/-- What an event leads to, if it can happen. -/
def next (e : Endpoints K C T) : Event K C → Option (Endpoints K C T)
  | .abort => some { e with hub := e.hub.abort }
  | .call i out =>
    match e.activity i with
    | .free =>
      if out.length = K then some (e.turnTo i (.packing out [] out))
      else some (e.reply i (.refused (.error (.shape K out.length))))
    | _ => none
  | .step i =>
    match e.activity i with
    | .free => none
    | .packing out packed [] => some (e.turnTo i (.meeting out packed))
    | .packing out packed (packet :: rest) =>
      match (carriers i).packSlot packet with
      | .ok payload => some (e.turnTo i (.packing out (packed ++ [payload]) rest))
      | .error cause => some (e.reply i (.refused cause))
    | .meeting out row =>
      (e.hub.advance row.payloads i).map fun hub =>
        match (hub.log i).drop (e.hub.log i).length with
        | [] => { e with hub }
        | outcome :: _ => leave carriers { e with hub } i out outcome

/-- What events one after the other lead to, if they can happen. -/
def run (e : Endpoints K C T) (events : List (Event K C)) : Option (Endpoints K C T) :=
  events.foldlM (next carriers) e

/-- What an event can be. -/
inductive Turn (e : Endpoints K C T) : Event K C → Endpoints K C T → Prop
  | abort : Turn e .abort { e with hub := e.hub.abort }
  | misshapen {i : Fin K} {out : Outgoing C} (hfree : e.activity i = .free) (hshape : out.length ≠ K) :
      Turn e (.call i out) (e.reply i (.refused (.error (.shape K out.length))))
  | begin {i : Fin K} {out : Outgoing C} (hfree : e.activity i = .free) (hshape : out.length = K) :
      Turn e (.call i out) (e.turnTo i (.packing out [] out))
  | pack {i : Fin K} {out rest : Outgoing C} {packed : Exchange.Row T} {packet : Option (Packet C)}
      {payload : Option T} (hactivity : e.activity i = .packing out packed (packet :: rest))
      (hpack : (carriers i).packSlot packet = .ok payload) :
      Turn e (.step i) (e.turnTo i (.packing out (packed ++ [payload]) rest))
  | refuse {i : Fin K} {out rest : Outgoing C} {packed : Exchange.Row T} {packet : Option (Packet C)}
      {cause : Failure ChannelError} (hactivity : e.activity i = .packing out packed (packet :: rest))
      (hpack : (carriers i).packSlot packet = .error cause) :
      Turn e (.step i) (e.reply i (.refused cause))
  | enter {i : Fin K} {out : Outgoing C} {packed : Exchange.Row T}
      (hactivity : e.activity i = .packing out packed []) :
      Turn e (.step i) (e.turnTo i (.meeting out packed))
  | inside {i : Fin K} {out : Outgoing C} {row : Exchange.Row T} {hub : Hub K T}
      (hactivity : e.activity i = .meeting out row) (hmove : e.hub.advance row.payloads i = some hub)
      (hlog : hub.log i = e.hub.log i) : Turn e (.step i) { e with hub }
  | leave {i : Fin K} {out : Outgoing C} {row : Exchange.Row T} {hub : Hub K T} {outcome : Outcome T}
      (hactivity : e.activity i = .meeting out row) (hmove : e.hub.advance row.payloads i = some hub)
      (hlog : hub.log i = e.hub.log i ++ [outcome]) :
      Turn e (.step i) (leave carriers { e with hub } i out outcome)

variable {carriers} {e e' : Endpoints K C T} {event : Event K C}

@[simp] theorem leave_hub (i : Fin K) (out : Outgoing C) (outcome : Outcome T) :
    (leave carriers e i out outcome).hub = e.hub := rfl

@[simp] theorem leave_activity (i : Fin K) (out : Outgoing C) (outcome : Outcome T) :
    (leave carriers e i out outcome).activity = Function.update e.activity i .free := rfl

/-- A refused call adds nothing to what an endpoint has of its rounds. -/
@[simp] theorem results_refuse (i : Fin K) (cause : Failure ChannelError) :
    (e.reply i (.refused cause)).results = e.results := by
  funext j
  by_cases hj : j = i
  · subst hj
    simp [results, Reply.met?]
  · simp [results, hj]

theorem results_leave (i : Fin K) (out : Outgoing C) (outcome : Outcome T) :
    (leave carriers e i out outcome).results =
      Function.update e.results i (e.results i ++ [(carriers i).conclude outcome]) := by
  funext j
  by_cases hj : j = i
  · subst hj
    simp [results, leave, Reply.met?]
  · simp [results, leave, hj]

theorem Turn.of_next (h : e.next carriers event = some e') : Turn carriers e event e' := by
  cases event with
  | abort =>
    cases h
    exact .abort
  | call i out =>
    rw [next] at h
    split at h
    · next hfree =>
      split at h
      · next hshape =>
        cases h
        exact .begin hfree hshape
      · next hshape =>
        cases h
        exact .misshapen hfree hshape
    · cases h
  | step i =>
    rw [next] at h
    split at h
    · cases h
    · next hactivity =>
      cases h
      exact .enter hactivity
    · next hactivity =>
      split at h
      · next hpack =>
        cases h
        exact .pack hactivity hpack
      · next hpack =>
        cases h
        exact .refuse hactivity hpack
    · next hactivity =>
      obtain ⟨hub, hmove, rfl⟩ := Option.map_eq_some_iff.1 h
      obtain ⟨_, hlog⟩ | ⟨_, outcome, hlog⟩ := (Hub.Move.of_advance hmove).inside_or_left
      · rw [hlog, List.drop_length]
        exact .inside hactivity hmove hlog
      · rw [hlog, List.drop_left]
        exact .leave hactivity hmove hlog

theorem Turn.next_eq (h : Turn carriers e event e') : e.next carriers event = some e' := by
  cases h with
  | abort => rfl
  | misshapen hfree hshape => simp only [next, hfree, if_neg hshape]
  | begin hfree hshape => simp only [next, hfree, if_pos hshape]
  | pack hactivity hpack => simp only [next, hactivity, hpack]
  | refuse hactivity hpack => simp only [next, hactivity, hpack]
  | enter hactivity => simp only [next, hactivity]
  | inside hactivity hmove hlog =>
    simp only [next, hactivity, hmove, Option.map_some, hlog, List.drop_length]
  | leave hactivity hmove hlog =>
    simp only [next, hactivity, hmove, Option.map_some, hlog, List.drop_left]

theorem next_eq_some_iff : e.next carriers event = some e' ↔ Turn carriers e event e' :=
  ⟨.of_next, Turn.next_eq⟩

theorem run_cons {events : List (Event K C)} :
    e.run carriers (event :: events) = some e' ↔
      ∃ mid, Turn carriers e event mid ∧ mid.run carriers events = some e' := by
  rw [run, List.foldlM_cons, Option.bind_eq_bind, Option.bind_eq_some_iff]
  simp only [next_eq_some_iff]
  rfl

theorem run_append (events more : List (Event K C)) :
    e.run carriers (events ++ more) = (e.run carriers events).bind (·.run carriers more) := by
  rw [run, List.foldlM_append]
  rfl

theorem run_append_singleton {events : List (Event K C)} :
    e.run carriers (events ++ [event]) = some e' ↔
      ∃ before, e.run carriers events = some before ∧ Turn carriers before event e' := by
  rw [run_append, Option.bind_eq_some_iff]
  refine exists_congr fun before => and_congr_right fun _ => ?_
  rw [← next_eq_some_iff, run, List.foldlM_cons]
  cases before.next carriers event <;> simp

section Results

/-- The call that an endpoint makes with an event, if it is not refused. -/
def acceptedOf? (carriers : Fin K → Carrier C T) (i : Fin K) : Event K C → Option (Outgoing C)
  | .call j out => if j = i ∧ ((carriers i).prepare K out).isOk then some out else none
  | .step _ | .abort => none

/-- The calls of an endpoint that are not refused. -/
def accepted (carriers : Fin K → Carrier C T) (events : List (Event K C)) (i : Fin K) : List (Outgoing C) :=
  events.filterMap (acceptedOf? carriers i)

/-- The row that an endpoint brings to a round because of an event. -/
def rowOf? (carriers : Fin K → Carrier C T) (i : Fin K) : Event K C → Option (Exchange.Row T)
  | .call j out => if j = i then ((carriers i).prepare K out).toOption else none
  | .step _ | .abort => none

/-- The rows of the calls of an endpoint that are not refused. -/
def rows (carriers : Fin K → Carrier C T) (events : List (Event K C)) (i : Fin K) : List (Exchange.Row T) :=
  events.filterMap (rowOf? carriers i)

/-- What the endpoints bring to the rounds. -/
def payloads (carriers : Fin K → Carrier C T) (events : List (Event K C)) : Payloads K T :=
  fun r i => ((rows carriers events i)[r]?.getD []).payloads r i

/-- The payloads of the rounds that were begun so far are as in the rows. -/
def Agrees (M : Payloads K T) (rows : Fin K → List (Exchange.Row T)) : Prop :=
  ∀ i r row, (rows i)[r]? = some row → M r i = row.payloads r i

/-- How far an endpoint has come with the rows that it brings, if it has been through a number of rounds. -/
def Brought (carrier : Carrier C T) (rounds : Nat) (rows : List (Exchange.Row T)) : Activity C T → Prop
  | .free => rows.length = rounds
  | .packing _ packed rest =>
    match rest.mapM carrier.packSlot with
    | .ok more => ∃ before, rows = before ++ [packed ++ more] ∧ before.length = rounds
    | .error _ => rows.length = rounds
  | .meeting _ row => ∃ before, rows = before ++ [row] ∧ before.length = rounds

/-- The hub has done what the calls so far make it do, and the replies are what it gave. -/
structure Tracks (carriers : Fin K → Carrier C T) (events : List (Event K C)) (e : Endpoints K C T) :
    Prop where
  reachable : ∀ M, Agrees M (rows carriers events) → Hub.Reachable M e.hub
  brought : ∀ i, Brought (carriers i) (e.hub.log i).length (rows carriers events i) (e.activity i)
  results_eq : ∀ i, e.results i = (e.hub.log i).map (carriers i).conclude
  idle_or_meeting : ∀ i, e.hub.place i = .idle ∨ ∃ out row, e.activity i = .meeting out row
  aborted : e.hub.aborted = true → .abort ∈ events

theorem tracks_start (carriers : Fin K → Carrier C T) : Tracks carriers [] (start K C T) where
  reachable _ _ := .refl
  brought _ := rfl
  results_eq _ := rfl
  idle_or_meeting _ := .inl rfl
  aborted h := by cases h

theorem rows_append (events : List (Event K C)) (event : Event K C) (i : Fin K) :
    rows carriers (events ++ [event]) i = rows carriers events i ++ (rowOf? carriers i event).toList := by
  rw [rows, List.filterMap_append]
  cases hrow : rowOf? carriers i event <;> simp [rows, hrow]

/-- What agrees with the rows of more calls agrees with those of fewer. -/
theorem Agrees.of_append {M : Payloads K T} {events : List (Event K C)}
    (h : Agrees M (rows carriers (events ++ [event]))) : Agrees M (rows carriers events) := by
  intro i r row hrow
  apply h i r row
  rw [rows_append, List.getElem?_append_left (List.getElem?_eq_some_iff.1 hrow).1, hrow]

theorem agrees_payloads (events : List (Event K C)) :
    Agrees (payloads carriers events) (rows carriers events) := by
  intro i r row hrow
  simp [payloads, hrow]

/-- Only a call of an endpoint brings a row of it. -/
theorem rows_append_of_none (events : List (Event K C)) {i : Fin K} (h : rowOf? carriers i event = none) :
    rows carriers (events ++ [event]) i = rows carriers events i := by
  rw [rows_append, h, Option.toList_none, List.append_nil]

theorem rowOf?_call_of_ne {i j : Fin K} (hj : j ≠ i) (out : Outgoing C) :
    rowOf? carriers j (.call i out) = none :=
  if_neg (Ne.symm hj)

theorem rowOf?_call (i : Fin K) (out : Outgoing C) :
    rowOf? carriers i (.call i out) = ((carriers i).prepare K out).toOption :=
  if_pos rfl

namespace Tracks

variable {events : List (Event K C)} {i : Fin K}

/-- An endpoint does something by itself. -/
theorem brought_update (h : Tracks carriers events e) (hothers : ∀ j ≠ i, rowOf? carriers j event = none)
    {activity : Activity C T}
    (hbrought : Brought (carriers i) (e.hub.log i).length (rows carriers (events ++ [event]) i) activity)
    (j : Fin K) : Brought (carriers j) (e.hub.log j).length (rows carriers (events ++ [event]) j)
      (Function.update e.activity i activity j) := by
  by_cases hj : j = i
  · subst hj
    rw [Function.update_self]
    exact hbrought
  · rw [Function.update_of_ne hj, rows_append_of_none events (hothers j hj)]
    exact h.brought j

/-- Between two rounds an endpoint can do anything. -/
theorem idle_or_meeting_update (h : Tracks carriers events e) (hidle : e.hub.place i = .idle)
    (activity : Activity C T) (j : Fin K) :
    e.hub.place j = .idle ∨ ∃ out row, Function.update e.activity i activity j = .meeting out row := by
  by_cases hj : j = i
  · subst hj
    exact .inl hidle
  · rw [Function.update_of_ne hj]
    exact h.idle_or_meeting j

theorem turnTo (h : Tracks carriers events e) (hidle : e.hub.place i = .idle)
    (hothers : ∀ j ≠ i, rowOf? carriers j event = none) {activity : Activity C T}
    (hbrought : Brought (carriers i) (e.hub.log i).length (rows carriers (events ++ [event]) i) activity) :
    Tracks carriers (events ++ [event]) (e.turnTo i activity) where
  reachable M hM := h.reachable M hM.of_append
  brought := h.brought_update hothers hbrought
  results_eq := h.results_eq
  idle_or_meeting := h.idle_or_meeting_update hidle activity
  aborted haborted := List.mem_append_left _ (h.aborted haborted)

/-- A call is refused. -/
theorem refuse (h : Tracks carriers events e) (hidle : e.hub.place i = .idle)
    (hothers : ∀ j, rowOf? carriers j event = none)
    (hbrought : (rows carriers events i).length = (e.hub.log i).length) (cause : Failure ChannelError) :
    Tracks carriers (events ++ [event]) (e.reply i (.refused cause)) where
  reachable M hM := h.reachable M hM.of_append
  brought := h.brought_update (fun j _ => hothers j) (by
    rw [rows_append_of_none events (hothers i)]
    exact hbrought)
  results_eq j := by
    rw [results_refuse]
    exact h.results_eq j
  idle_or_meeting := h.idle_or_meeting_update hidle .free
  aborted haborted := List.mem_append_left _ (h.aborted haborted)

/-- An endpoint takes a step in the hub. -/
theorem reachable_advance (h : Tracks carriers events e) {out : Outgoing C} {row : Exchange.Row T}
    {hub : Hub K T} (hactivity : e.activity i = .meeting out row) (hmove : e.hub.advance row.payloads i = some hub)
    {M : Payloads K T} (hM : Agrees M (rows carriers events)) : Hub.Reachable M hub := by
  have hbrought := h.brought i
  rw [hactivity] at hbrought
  obtain ⟨before, hrows, hlength⟩ := hbrought
  have hrow : M (e.hub.log i).length i = row.payloads (e.hub.log i).length i := by
    apply hM i _ row
    rw [hrows, ← hlength, List.getElem?_concat_length]
  refine (h.reachable M hM).tail (.advance i ?_)
  rw [Hub.advance_congr hrow, ← hmove]

/-- An endpoint takes a step in the hub, and stays in its round. -/
theorem inside (h : Tracks carriers events e) {out : Outgoing C} {row : Exchange.Row T} {hub : Hub K T}
    (hactivity : e.activity i = .meeting out row) (hmove : e.hub.advance row.payloads i = some hub)
    (hlog : hub.log i = e.hub.log i) : Tracks carriers (events ++ [.step i]) { e with hub } := by
  have hmoved := Hub.Move.of_advance hmove
  have hlogs : hub.log = e.hub.log := by
    funext j
    by_cases hj : j = i
    · rw [hj, hlog]
    · exact (hmoved.of_ne hj).2
  refine ⟨fun M hM => h.reachable_advance hactivity hmove hM.of_append, fun j => ?_, fun j => ?_, fun j => ?_,
    fun haborted => ?_⟩
  · rw [rows_append_of_none events rfl, hlogs]
    exact h.brought j
  · rw [hlogs]
    exact h.results_eq j
  · by_cases hj : j = i
    · subst hj
      exact .inr ⟨out, row, hactivity⟩
    · rw [(hmoved.of_ne hj).1]
      exact h.idle_or_meeting j
  · exact List.mem_append_left _ (h.aborted (hmoved.aborted_eq ▸ haborted))

/-- An endpoint takes its last step of a round, and has its result. -/
theorem leave (h : Tracks carriers events e) {out : Outgoing C} {row : Exchange.Row T} {hub : Hub K T}
    {outcome : Outcome T} (hactivity : e.activity i = .meeting out row)
    (hmove : e.hub.advance row.payloads i = some hub) (hlog : hub.log i = e.hub.log i ++ [outcome]) :
    Tracks carriers (events ++ [.step i]) (Endpoints.leave carriers { e with hub } i out outcome) := by
  have hmoved := Hub.Move.of_advance hmove
  have hbrought := h.brought i
  rw [hactivity] at hbrought
  obtain ⟨before, hrows, hlength⟩ := hbrought
  refine ⟨fun M hM => h.reachable_advance hactivity hmove hM.of_append, fun j => ?_, fun j => ?_, fun j => ?_,
    fun haborted => ?_⟩
  · rw [rows_append_of_none events rfl]
    by_cases hj : j = i
    · subst hj
      simp [Brought, hrows, hlog, hlength]
    · simp only [leave_activity, leave_hub, Function.update_of_ne hj, (hmoved.of_ne hj).2]
      exact h.brought j
  · rw [results_leave, leave_hub]
    by_cases hj : j = i
    · subst hj
      rw [Function.update_self, hlog, List.map_append, ← h.results_eq]
      rfl
    · rw [Function.update_of_ne hj, (hmoved.of_ne hj).2]
      exact h.results_eq j
  · rw [leave_hub, leave_activity]
    by_cases hj : j = i
    · subst hj
      obtain ⟨_, hsame⟩ | ⟨hidle, _⟩ := hmoved.inside_or_left
      · simp [hlog] at hsame
      · exact .inl hidle
    · rw [(hmoved.of_ne hj).1, Function.update_of_ne hj]
      exact h.idle_or_meeting j
  · exact List.mem_append_left _ (h.aborted (hmoved.aborted_eq ▸ haborted))

end Tracks

/-- Each event keeps the hub and the replies to what the calls make of them. -/
theorem Tracks.turn {events : List (Event K C)} (h : Tracks carriers events e)
    (hturn : Turn carriers e event e') : Tracks carriers (events ++ [event]) e' := by
  cases hturn with
  | abort =>
    refine ⟨fun M hM => (h.reachable M hM.of_append).tail (.abort _), fun i => ?_, h.results_eq,
      h.idle_or_meeting, ?_⟩
    · rw [rows_append_of_none events rfl]
      exact h.brought i
    · simp
  | @misshapen i out hfree hshape =>
    have hbrought := h.brought i
    have hidle := (h.idle_or_meeting i).resolve_right (by simp [hfree])
    rw [hfree] at hbrought
    refine h.refuse hidle (fun j => ?_) hbrought _
    by_cases hj : j = i
    · subst hj
      rw [rowOf?_call, Carrier.prepare_of_length_ne hshape]
      rfl
    · exact rowOf?_call_of_ne hj out
  | @begin i out hfree hshape =>
    have hbrought := h.brought i
    have hidle := (h.idle_or_meeting i).resolve_right (by simp [hfree])
    rw [hfree] at hbrought
    refine h.turnTo hidle (fun j hj => rowOf?_call_of_ne hj out) ?_
    rw [rows_append, rowOf?_call, Carrier.prepare_of_length hshape, Brought]
    cases out.mapM (carriers i).packSlot with
    | ok row => exact ⟨rows carriers events i, rfl, hbrought⟩
    | error cause =>
      simp only [Except.toOption, Option.toList_none, List.append_nil]
      exact hbrought
  | @pack i out rest packed packet payload hactivity hpack =>
    have hbrought := h.brought i
    have hidle := (h.idle_or_meeting i).resolve_right (by simp [hactivity])
    rw [hactivity] at hbrought
    refine h.turnTo hidle (fun j _ => rfl) ?_
    rw [rows_append_of_none events rfl]
    rw [Brought, List.mapM_cons, hpack] at hbrought
    rw [Brought]
    cases hrest : rest.mapM (carriers i).packSlot with
    | ok more =>
      rw [hrest] at hbrought
      obtain ⟨before, hrows, hlength⟩ := hbrought
      exact ⟨before, by rw [hrows]; simp, hlength⟩
    | error cause =>
      rw [hrest] at hbrought
      exact hbrought
  | @refuse i out rest packed packet cause hactivity hpack =>
    have hbrought := h.brought i
    have hidle := (h.idle_or_meeting i).resolve_right (by simp [hactivity])
    rw [hactivity, Brought, List.mapM_cons, hpack] at hbrought
    exact h.refuse hidle (fun j => rfl) hbrought cause
  | @enter i out packed hactivity =>
    have hbrought := h.brought i
    have hidle := (h.idle_or_meeting i).resolve_right (by simp [hactivity])
    rw [hactivity, Brought, List.mapM_nil] at hbrought
    refine h.turnTo hidle (fun j _ => rfl) ?_
    rw [rows_append_of_none events rfl, Brought]
    obtain ⟨before, hrows, hlength⟩ := hbrought
    exact ⟨before, by rw [hrows, List.append_nil], hlength⟩
  | inside hactivity hmove hlog => exact h.inside hactivity hmove hlog
  | leave hactivity hmove hlog => exact h.leave hactivity hmove hlog

theorem tracks_of_run {events : List (Event K C)} (hrun : (start K C T).run carriers events = some e) :
    Tracks carriers events e := by
  induction events using List.reverseRecOn generalizing e with
  | nil =>
    cases hrun
    exact tracks_start carriers
  | append_singleton events event ih =>
    obtain ⟨before, hbefore, hturn⟩ := run_append_singleton.1 hrun
    exact (ih hbefore).turn hturn

/-- An endpoint has brought a row to each round behind it. -/
theorem Brought.le_length {carrier : Carrier C T} {rounds : Nat} {rows : List (Exchange.Row T)}
    {activity : Activity C T} (h : Brought carrier rounds rows activity) : rounds ≤ rows.length := by
  cases activity with
  | free => exact h.ge
  | packing out packed rest =>
    rw [Brought] at h
    split at h
    · obtain ⟨before, rfl, rfl⟩ := h
      exact List.length_append ▸ Nat.le_add_right _ _
    · exact h.ge
  | meeting out row =>
    obtain ⟨before, rfl, rfl⟩ := h
    exact List.length_append ▸ Nat.le_add_right _ _

/-- An endpoint has brought a row to each round that it has begun. -/
theorem Tracks.begun_le {events : List (Event K C)} (h : Tracks carriers events e) (i : Fin K) :
    e.hub.begun i ≤ (rows carriers events i).length := by
  have hbrought := h.brought i
  obtain hidle | ⟨out, row, hmeeting⟩ := h.idle_or_meeting i
  · have hbegun : e.hub.begun i = (e.hub.log i).length := by rw [Hub.begun, hidle]
    rw [hbegun]
    exact hbrought.le_length
  · rw [hmeeting] at hbrought
    obtain ⟨before, hrows, hlength⟩ := hbrought
    rw [hrows, List.length_append, hlength, Hub.begun]
    split <;> simp

theorem rowOf?_eq (event : Event K C) (i : Fin K) : rowOf? carriers i event =
    (acceptedOf? carriers i event).map fun out => ((carriers i).prepare K out).toOption.getD [] := by
  cases event with
  | call j out =>
    rw [rowOf?, acceptedOf?]
    by_cases hj : j = i
    · rw [if_pos hj]
      cases hprepare : (carriers i).prepare K out with
      | ok row => simp [hj, hprepare, Except.isOk, Except.toBool, Except.toOption]
      | error cause => simp [Except.isOk, Except.toBool, Except.toOption]
    · rw [if_neg hj, if_neg (fun h => hj h.1)]
      rfl
  | step j => rfl
  | abort => rfl

/-- Each row is that of a call that is not refused. -/
theorem exists_accepted {events : List (Event K C)} {i : Fin K} {r : Nat}
    (h : r < (rows carriers events i).length) :
    ∃ out row, (accepted carriers events i)[r]? = some out ∧ (carriers i).prepare K out = .ok row ∧
      (rows carriers events i)[r]? = some row := by
  have hrows : rows carriers events i =
      (accepted carriers events i).map fun out => ((carriers i).prepare K out).toOption.getD [] := by
    rw [rows, accepted, List.map_filterMap]
    exact List.filterMap_congr fun event _ => rowOf?_eq event i
  rw [hrows, List.length_map] at h
  have hget := List.getElem?_eq_getElem h
  obtain ⟨event, _, hevent⟩ := List.mem_filterMap.1 (List.mem_of_getElem? hget)
  cases event with
  | call j out =>
    rw [acceptedOf?] at hevent
    split at hevent
    · next hcall =>
      cases hprepare : (carriers i).prepare K out with
      | ok row =>
        rw [← Option.some.inj hevent] at hget
        refine ⟨out, row, hget, hprepare, ?_⟩
        rw [hrows, List.getElem?_map, hget, Option.map_some, hprepare]
        rfl
      | error cause =>
        rw [hprepare] at hcall
        cases hcall.2
    · cases hevent
  | step j => cases hevent
  | abort => cases hevent

/-- What an endpoint has of a round is what the calls that are not refused give in a collective round, if the
round was not aborted. -/
theorem result_of_run {events : List (Event K C)} (hrun : (start K C T).run carriers events = some e)
    {i : Fin K} {r : Nat} {answer : Answer C} (hfound : (e.results i)[r]? = some answer) :
    (∃ outs : Fin K → Outgoing C, (∀ j, (accepted carriers events j)[r]? = some (outs j)) ∧
      (meet (List.ofFn carriers) false (List.ofFn fun j => some (outs j)))[i.val]? = some answer) ∨
    answer = .error (.error .aborted) ∧ .abort ∈ events := by
  have htracks := tracks_of_run hrun
  have hreach := htracks.reachable _ (agrees_payloads events)
  rw [htracks.results_eq, List.getElem?_map] at hfound
  obtain ⟨outcome, hlog, rfl⟩ := Option.map_eq_some_iff.1 hfound
  cases outcome with
  | ok received =>
    have hbegun (j : Fin K) : r < (rows carriers events j).length :=
      Nat.lt_of_lt_of_le (hreach.synced.lt_begun_of_ok hlog j) (htracks.begun_le j)
    choose outs prepared houts hprepared hrows using fun j => exists_accepted (hbegun j)
    have hround : (payloads carriers events).rows r = List.ofFn prepared := by
      rw [Payloads.rows]
      refine congrArg List.ofFn (funext fun j => ?_)
      have hlength := Carrier.length_of_prepare (hprepared j)
      rw [payloads, hrows, Option.getD_some, Exchange.Row.ofFn_payloads hlength]
    refine .inl ⟨outs, houts, ?_⟩
    rw [meet_ofFn_of_prepared hprepared, List.getElem?_ofFn, dif_pos i.isLt, Carrier.conclude,
      hreach.kept.outcome hlog, Payloads.due, hround]
  | error cause =>
    refine .inr ⟨rfl, htracks.aborted ?_⟩
    by_contra hopen
    cases (hreach.consistent (Bool.not_eq_true _ ▸ hopen)).outcome hlog

end Results

end Endpoints

end ColoredCtl

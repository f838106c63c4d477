import ColoredCtl.Proofs.Check.Verdict
import ColoredCtl.Proofs.Hub.Outcomes

/-!
Workers that meet in a hub, in any order of their steps.

A worker goes from round to round. What it does next depends on what it has received so far: it enters
a round with a row of payloads, it finishes with a value, or it fails. A worker that fails, or that was
told that the hub was aborted, aborts the hub before it ends.

The workers can also be taken in lock-step: all of them compute up to their next round, then the round
is held. What they do between two rounds is a segment. It turns out that the order of the steps does not
matter: the workers come to the same segment, and each of them ends there as in lock-step.
-/

namespace ColoredCtl

variable {K : Nat} {T V : Type}

/-- What was received in rounds, unless one of them was aborted. -/
def Outcome.all (log : List (Outcome T)) : Except Aborted (List (Option (List T))) := log.mapM id

/-- An error that a worker has by itself, other than that the hub was aborted. -/
abbrev Fault := { cause : CheckError // cause ≠ .channel .aborted }

/-- What a worker does next. -/
inductive Action (K : Nat) (T V : Type) where
  | enter (row : Fin K → Option T)
  | finish (value : V)
  | fail (cause : Fault)

namespace Action

/-- What the worker brings to a round. -/
def row : Action K T V → Fin K → Option T
  | .enter row => row
  | _ => fun _ => none

def Enters (action : Action K T V) : Prop := ∃ row, action = .enter row

/-- What the worker ends with when the round that it enters is not held. -/
def outcome : Action K T V → Except CheckError V
  | .enter _ => .error (.channel .aborted)
  | .finish value => .ok value
  | .fail cause => .error cause

end Action

/-- Workers: what each of them does next, by what it has received in its rounds so far. -/
abbrev Program (K : Nat) (T V : Type) := Fin K → List (Option (List T)) → Action K T V

namespace Program

/-- What a worker has received in a number of rounds that all workers have entered together. -/
def history (P : Program K T V) : Nat → Fin K → List (Option (List T))
  | 0, _ => []
  | r + 1, i => P.history r i ++ [Payloads.due (fun _ j => (P j (P.history r j)).row) r i]

/-- What a worker does in a segment. -/
def action (P : Program K T V) (segment : Nat) (i : Fin K) : Action K T V := P i (P.history segment i)

/-- What the workers bring to the rounds. -/
def payloads (P : Program K T V) : Payloads K T := fun r i => (P.action r i).row

/-- All workers enter the first rounds, and then none is left that waits for the others for ever. -/
structure Stops (P : Program K T V) (segment : Nat) : Prop where
  before : ∀ r < segment, ∀ i, (P.action r i).Enters
  here : (∀ i, ∃ value, P.action segment i = .finish value) ∨ ∃ i cause, P.action segment i = .fail cause

/-- No worker finishes in a segment in which another one enters a round, unless some worker fails in
that segment. -/
def Orderly (P : Program K T V) : Prop :=
  ∀ segment, (∀ r < segment, ∀ i, (P.action r i).Enters) → ∀ i j value row,
    P.action segment i = .finish value → P.action segment j = .enter row →
      ∃ k cause, P.action segment k = .fail cause

variable {P : Program K T V} {r r' : Nat} {i : Fin K}

theorem history_succ : P.history (r + 1) i = P.history r i ++ [P.payloads.due r i] := rfl

@[simp] theorem length_history : (P.history r i).length = r := by
  induction r with
  | zero => rfl
  | succ r ih => rw [history_succ, List.length_append, ih, List.length_singleton]

/-- The outcomes of the rounds of a history. -/
def log (P : Program K T V) (r : Nat) (i : Fin K) : List (Outcome T) := (P.history r i).map .ok

theorem log_succ : P.log (r + 1) i = P.log r i ++ [.ok (P.payloads.due r i)] := by
  rw [log, history_succ, List.map_append]
  rfl

@[simp] theorem length_log : (P.log r i).length = r := by rw [log, List.length_map, length_history]

theorem log_inj (h : P.log r i = P.log r' i) : r = r' := by
  have hlength := congrArg List.length h
  rwa [length_log, length_log] at hlength

theorem log_ne_append_error : P.log r i ≠ P.log r' i ++ [.error .aborted] := by
  intro h
  have hmem : .error .aborted ∈ P.log r i := h ▸ List.mem_append_right _ List.mem_cons_self
  simp [log] at hmem

theorem all_log : Outcome.all (P.log r i) = .ok (P.history r i) := by
  rw [Outcome.all, log, List.mapM_map]
  exact (mapM_eq_ok (g := id) fun _ _ => rfl).trans (by rw [List.map_id])

theorem all_log_append_error : Outcome.all (P.log r i ++ [.error .aborted]) = .error .aborted := by
  have hall := all_log (P := P) (r := r) (i := i)
  rw [Outcome.all] at hall ⊢
  rw [List.mapM_append, hall]
  rfl

/-- The segment in which the workers stop is determined. -/
theorem Stops.eq (h : P.Stops r) (h' : P.Stops r') (hpos : 0 < K) : r = r' := by
  have hle {r r' : Nat} (h : P.Stops r) (h' : P.Stops r') : r' ≤ r := by
    by_contra hlt
    have henters := h'.before r (Nat.not_le.1 hlt)
    obtain hfinish | ⟨i, cause, hfail⟩ := h.here
    · obtain ⟨value, hvalue⟩ := hfinish ⟨0, hpos⟩
      obtain ⟨row, hrow⟩ := henters ⟨0, hpos⟩
      cases hvalue.symm.trans hrow
    · obtain ⟨row, hrow⟩ := henters i
      cases hfail.symm.trans hrow
  exact Nat.le_antisymm (hle h' h) (hle h h')

end Program

/-- How far a worker has come. -/
inductive Status (V : Type) where
  | running
  /-- About to abort the hub. -/
  | failing (cause : CheckError)
  | ended (outcome : Except CheckError V)

/-- A hub, and the workers that meet in it. -/
structure System (K : Nat) (T V : Type) where
  hub : Hub K T
  status : Fin K → Status V

namespace System

/-- Before the first step. -/
def start (K : Nat) (T V : Type) : System K T V := { hub := .start K T, status := fun _ => .running }

@[simps] def set (s : System K T V) (i : Fin K) (status : Status V) : System K T V :=
  { s with status := Function.update s.status i status }

@[simps] def abort (s : System K T V) : System K T V := { s with hub := s.hub.abort }

/-- What the workers bring to the rounds in which they are. -/
def payloads (P : Program K T V) (s : System K T V) : Payloads K T := fun _ i =>
  match Outcome.all (s.hub.log i) with
  | .ok received => (P i received).row
  | .error _ => fun _ => none

/-- The next step of a worker in its round. -/
def within (P : Program K T V) (s : System K T V) (i : Fin K) : Option (System K T V) :=
  (s.hub.advance (s.payloads P) i).map fun hub => { s with hub }

/-- The next step of a worker. There is none for a worker that has ended, and maybe none for one that
waits for others. -/
def advance (P : Program K T V) (s : System K T V) (i : Fin K) : Option (System K T V) :=
  match s.status i with
  | .ended _ => none
  | .failing cause => some (s.abort.set i (.ended (.error cause)))
  | .running =>
    match s.hub.place i, Outcome.all (s.hub.log i) with
    | .idle, .error _ => some (s.set i (.failing (.channel .aborted)))
    | .idle, .ok received =>
      match P i received with
      | .enter _ => s.within P i
      | .finish value => some (s.set i (.ended (.ok value)))
      | .fail cause => some (s.set i (.failing cause))
    | _, _ => s.within P i

def Step (P : Program K T V) (s s' : System K T V) : Prop := ∃ i, s.advance P i = some s'

/-- What the workers can come to, whatever the order of their steps. -/
def Reachable (P : Program K T V) (s : System K T V) : Prop :=
  Relation.ReflTransGen (Step P) (start K T V) s

/-- No worker has a next step. -/
def Complete (P : Program K T V) (s : System K T V) : Prop := ∀ i, s.advance P i = none

/-- The steps of the workers in a given order. -/
def run (P : Program K T V) : List (Fin K) → System K T V → Option (System K T V)
  | [], s => some s
  | i :: rest, s => (s.advance P i).bind (run P rest)

theorem steps_of_run {P : Program K T V} {order : List (Fin K)} {s s' : System K T V}
    (hrun : run P order s = some s') : Relation.ReflTransGen (Step P) s s' := by
  induction order generalizing s with
  | nil =>
    cases hrun
    exact .refl
  | cons i rest ih =>
    obtain ⟨next, hnext, hrest⟩ := Option.bind_eq_some_iff.1 hrun
    exact .head ⟨i, hnext⟩ (ih hrest)

/-- Where a worker can be that has entered a number of rounds with the others. -/
inductive Stage (P : Program K T V) (r : Nat) (i : Fin K) : Place T → List (Outcome T) → Status V → Prop
  | between : Stage P r i .idle (P.log r i) .running
  | inside {p : Place T} (hplace : p ≠ .idle) (henters : (P.action r i).Enters) :
      Stage P r i p (P.log r i) .running
  | told {status : Status V} (henters : (P.action r i).Enters)
      (hstatus : status = .running ∨ status = .failing (.channel .aborted) ∨
        status = .ended (.error (.channel .aborted))) :
      Stage P r i .idle (P.log r i ++ [.error .aborted]) status
  | failed {cause : Fault} {status : Status V} (haction : P.action r i = .fail cause)
      (hstatus : status = .failing cause ∨ status = .ended (.error cause)) :
      Stage P r i .idle (P.log r i) status
  | finished {value : V} (haction : P.action r i = .finish value) :
      Stage P r i .idle (P.log r i) (.ended (.ok value))

/-- The workers have done what they do in lock-step, as far as they have come. -/
structure Follows (P : Program K T V) (s : System K T V) : Prop where
  reachable : Hub.Reachable P.payloads s.hub
  stage : ∀ i, ∃ r, (∀ q < r, (P.action q i).Enters) ∧
    Stage P r i (s.hub.place i) (s.hub.log i) (s.status i)
  aborted_of_ended : ∀ {i cause}, s.status i = .ended (.error cause) → s.hub.aborted = true
  fail_of_aborted : s.hub.aborted = true →
    ∃ i r cause, P.action r i = .fail cause ∧ s.hub.log i = P.log r i

theorem follows_start (P : Program K T V) : Follows P (start K T V) where
  reachable := .refl
  stage _ := ⟨0, by simp, .between⟩
  aborted_of_ended h := by cases h
  fail_of_aborted h := by cases h

section Step

variable {P : Program K T V} {s s' : System K T V} {r : Nat} {i : Fin K}

/-- A worker that does nothing to the hub. -/
theorem Follows.set (hf : Follows P s) {status : Status V} (hbefore : ∀ q < r, (P.action q i).Enters)
    (hstage : Stage P r i (s.hub.place i) (s.hub.log i) status)
    (haborted : ∀ cause, status = .ended (.error cause) → s.hub.aborted = true) :
    Follows P (s.set i status) := by
  refine ⟨hf.reachable, fun j => ?_, fun {j cause} hended => ?_, hf.fail_of_aborted⟩
  · by_cases hj : j = i
    · subst hj
      refine ⟨r, hbefore, ?_⟩
      rw [set_status, Function.update_self]
      exact hstage
    · rw [set_status, Function.update_of_ne hj]
      exact hf.stage j
  · by_cases hj : j = i
    · subst hj
      rw [set_status, Function.update_self] at hended
      exact haborted cause hended
    · rw [set_status, Function.update_of_ne hj] at hended
      exact hf.aborted_of_ended hended

theorem Follows.abort (hf : Follows P s)
    (hfail : ∃ i r cause, P.action r i = .fail cause ∧ s.hub.log i = P.log r i) : Follows P s.abort :=
  ⟨hf.reachable.tail (.abort _), hf.stage, fun _ => rfl, fun _ => hfail⟩

/-- A worker in a round brings to it what it does in lock-step. -/
theorem payloads_eq (hlog : s.hub.log i = P.log r i) :
    s.payloads P (s.hub.log i).length i = P.payloads (s.hub.log i).length i := by
  rw [payloads, hlog, Program.all_log, Program.length_log]
  rfl

theorem within_eq (hlog : s.hub.log i = P.log r i) :
    s.within P i = (s.hub.advance P.payloads i).map fun hub => { s with hub } := by
  rw [within, Hub.advance_congr (payloads_eq hlog)]

/-- Where a worker is after a step in its round. -/
theorem Stage.move {hub : Hub K T} (hbefore : ∀ q < r, (P.action q i).Enters)
    (henters : (P.action r i).Enters) (hlog : s.hub.log i = P.log r i)
    (hreach : Hub.Reachable P.payloads hub) (hmove : Hub.Move P.payloads s.hub i hub) :
    ∃ r, (∀ q < r, (P.action q i).Enters) ∧ Stage P r i (hub.place i) (hub.log i) .running := by
  obtain ⟨hplace, hsame⟩ | ⟨hplace, outcome, hleft⟩ := hmove.inside_or_left
  · rw [hsame, hlog]
    exact ⟨r, hbefore, .inside hplace henters⟩
  · rw [hlog] at hleft
    rw [hplace, hleft]
    cases outcome with
    | error cause => exact ⟨r, hbefore, .told henters (.inl rfl)⟩
    | ok received =>
      have hfound : (hub.log i)[r]? = some (.ok received) := by
        rw [hleft, List.getElem?_append_right (by simp)]
        simp
      rw [hreach.kept.outcome hfound, ← Program.log_succ]
      refine ⟨r + 1, fun q hq => ?_, .between⟩
      obtain hq | rfl := Nat.lt_succ_iff_lt_or_eq.1 hq
      · exact hbefore q hq
      · exact henters

/-- A step of a worker in its round. -/
theorem Follows.within (hf : Follows P s) (hbefore : ∀ q < r, (P.action q i).Enters)
    (henters : (P.action r i).Enters) (hlog : s.hub.log i = P.log r i) (hstatus : s.status i = .running)
    (hstep : s.within P i = some s') : Follows P s' := by
  rw [within_eq hlog] at hstep
  obtain ⟨hub, hhub, rfl⟩ := Option.map_eq_some_iff.1 hstep
  have hmove := Hub.Move.of_advance hhub
  have hreach : Hub.Reachable P.payloads hub := hf.reachable.tail (.advance i hhub)
  refine ⟨hreach, fun j => ?_, fun hended => ?_, fun haborted => ?_⟩
  · by_cases hj : j = i
    · subst hj
      rw [hstatus]
      exact Stage.move hbefore henters hlog hreach hmove
    · obtain ⟨hplace, hsame⟩ := hmove.of_ne hj
      rw [hplace, hsame]
      exact hf.stage j
  · exact hmove.aborted_eq.trans (hf.aborted_of_ended hended)
  · obtain ⟨j, q, cause, hfail, hj⟩ := hf.fail_of_aborted (hmove.aborted_eq.symm.trans haborted)
    refine ⟨j, q, cause, hfail, ?_⟩
    -- The one that fails has not entered a round, so that it is another worker.
    have hne : j ≠ i := by
      rintro rfl
      obtain rfl := Program.log_inj (hj.symm.trans hlog)
      obtain ⟨row, hrow⟩ := henters
      cases hfail.symm.trans hrow
    rw [(hmove.of_ne hne).2, hj]

/-- A worker that was told of an abort: the hub is aborted. -/
theorem Follows.aborted_of_told (hf : Follows P s) (hlog : s.hub.log i = P.log r i ++ [.error .aborted]) :
    s.hub.aborted = true := by
  have hfound : (s.hub.log i)[r]? = some (.error .aborted) := by
    rw [hlog, List.getElem?_append_right (by simp)]
    simp
  exact (hf.reachable.synced.lt_of_error hfound).1

/-- A step of any worker. -/
theorem Follows.advance (hf : Follows P s) (hstep : s.advance P i = some s') : Follows P s' := by
  obtain ⟨r, hbefore, hstage⟩ := hf.stage i
  unfold System.advance at hstep
  generalize hplace : s.hub.place i = place at hstage hstep
  generalize hlog : s.hub.log i = log at hstage hstep
  generalize hstatus : s.status i = status at hstage hstep
  cases hstage with
  | between =>
    rw [Program.all_log] at hstep
    cases haction : P i (P.history r i) with
    | enter row =>
      simp only [haction] at hstep
      exact hf.within hbefore ⟨row, haction⟩ hlog hstatus hstep
    | finish value =>
      simp only [haction, Option.some.injEq] at hstep
      subst hstep
      refine hf.set hbefore ?_ (by simp)
      rw [hplace, hlog]
      exact .finished haction
    | fail cause =>
      simp only [haction, Option.some.injEq] at hstep
      subst hstep
      refine hf.set hbefore ?_ (by simp)
      rw [hplace, hlog]
      exact .failed haction (.inl rfl)
  | inside hinside henters =>
    cases place with
    | idle => exact absurd rfl hinside
    | _ => exact hf.within hbefore henters hlog hstatus hstep
  | told henters htold =>
    rw [Program.all_log_append_error] at hstep
    obtain rfl | rfl | rfl := htold
    · simp only [Option.some.injEq] at hstep
      subst hstep
      refine hf.set hbefore ?_ (by simp)
      rw [hplace, hlog]
      exact .told henters (.inr (.inl rfl))
    · simp only [Option.some.injEq] at hstep
      subst hstep
      refine (hf.abort (hf.fail_of_aborted (hf.aborted_of_told hlog))).set hbefore ?_ fun _ _ => rfl
      rw [abort_hub, Hub.abort_place, Hub.abort_log, hplace, hlog]
      exact .told henters (.inr (.inr rfl))
    · cases hstep
  | failed haction hfailed =>
    obtain rfl | rfl := hfailed
    · simp only [Option.some.injEq] at hstep
      subst hstep
      refine (hf.abort ⟨i, r, _, haction, hlog⟩).set hbefore ?_ fun _ _ => rfl
      rw [abort_hub, Hub.abort_place, Hub.abort_log, hplace, hlog]
      exact .failed haction (.inr rfl)
    · cases hstep
  | finished => cases hstep

theorem Reachable.follows (hreach : Reachable P s) : Follows P s := by
  induction hreach with
  | refl => exact follows_start P
  | tail _ hstep ih =>
    obtain ⟨i, hstep⟩ := hstep
    exact ih.advance hstep

end Step

end System

end ColoredCtl

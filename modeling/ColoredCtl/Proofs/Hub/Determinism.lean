import ColoredCtl.Proofs.Hub.Schedule
import Mathlib.Algebra.BigOperators.Fin
import Mathlib.Algebra.Order.BigOperators.Group.Finset

/-!
The order of the steps does not matter.

The generation of the barrier tells the segment in which the workers are. When no worker has a next
step, all of them have ended in the same segment, each as in lock-step; for a worker that waits for the
others could only be left behind by one that has finished. And if there is a last segment, no worker
takes steps for ever.
-/

namespace ColoredCtl

variable {K : Nat} {T V : Type}

/-- Only a partner that waits for the next meeting has no step. -/
theorem Hub.waiting_of_advance_eq_none {M : Payloads K T} {h : Hub K T} {i : Fin K}
    (hnone : h.advance M i = none) :
    h.aborted = false ∧ ∃ meeting received, h.place i = .waiting meeting h.generation received := by
  have hopen : h.aborted = false := by
    by_contra haborted
    have hsome := isSome_advance (M := M) (Bool.eq_true_of_not_eq_false haborted) i
    rw [hnone] at hsome
    cases hsome
  refine ⟨hopen, ?_⟩
  unfold advance at hnone
  split at hnone
  · cases hnone
  · split at hnone
    · simp only at hnone
      split at hnone <;> cases hnone
    · cases hnone
  · cases hnone
  · cases hnone
  · split at hnone <;> cases hnone
  · split at hnone
    · cases hnone
    · split at hnone <;> cases hnone
  · next meeting since received hplace =>
    split at hnone
    · cases hnone
    · next hsame =>
      rw [not_not] at hsame
      subst hsame
      exact ⟨meeting, received, hplace⟩

/-- More than the number of steps that a worker takes until it has ended, when it has left its rounds. -/
def Status.rank : Status V → Nat
  | .running => 2
  | .failing _ => 1
  | .ended _ => 0

namespace Place

theorem rank_pos {p : Place T} (hinside : p ≠ .idle) : 0 < p.rank K := by
  cases p with
  | idle => exact absurd rfl hinside
  | waiting meeting since received => cases meeting <;> simp [rank]
  | taking sender received => cases received <;> simp [rank]
  | _ => simp [rank]

theorem rank_lt (K : Nat) (p : Place T) : p.rank K < 4 * K + 10 := by
  cases p with
  | idle => exact Nat.succ_pos _
  | sending receiver marked => cases marked <;> simp [rank] <;> omega
  | waiting meeting since received => cases meeting <;> simp [rank] <;> omega
  | taking sender received => cases received <;> simp [rank] <;> omega
  | _ =>
    simp [rank]
    omega

/-- More than the number of steps that a partner takes until it has left a round. -/
def ahead (K : Nat) : Place T → Nat
  | .idle => 4 * K + 10
  | p => p.rank K

theorem ahead_idle : (idle : Place T).ahead K = 4 * K + 10 := rfl

theorem ahead_of_ne {p : Place T} (hinside : p ≠ .idle) : p.ahead K = p.rank K := by
  cases p with
  | idle => exact absurd rfl hinside
  | _ => rfl

end Place

namespace System

variable {P : Program K T V} {s s' : System K T V} {r : Nat} {i : Fin K}

section Segment

variable {place : Place T} {log : List (Outcome T)} {status : Status V}

theorem Stage.log_eq (hstage : Stage P r i place log status) :
    log = P.log r i ∨ log = P.log r i ++ [.error .aborted] := by
  cases hstage with
  | told => exact .inr rfl
  | _ => exact .inl rfl

theorem Stage.idle_of_ended {outcome : Except CheckError V}
    (hstage : Stage P r i place log (.ended outcome)) : place = .idle := by
  cases hstage with
  | _ => rfl

theorem Stage.of_inside (hstage : Stage P r i place log status) (hinside : place ≠ .idle) :
    (P.action r i).Enters ∧ log = P.log r i := by
  cases hstage with
  | inside _ henters => exact ⟨henters, rfl⟩
  | _ => exact absurd rfl hinside

/-- A worker ends with what it does in its segment. -/
theorem Stage.outcome_eq {outcome : Except CheckError V}
    (hstage : Stage P r i place log (.ended outcome)) : outcome = (P.action r i).outcome := by
  cases hstage with
  | told henters hstatus =>
    obtain ⟨row, hrow⟩ := henters
    obtain h | h | h := hstatus
    · cases h
    · cases h
    · cases h
      rw [hrow]
      rfl
  | failed haction hstatus =>
    obtain h | h := hstatus
    · cases h
    · cases h
      rw [haction]
      rfl
  | finished haction =>
    rw [haction]
    rfl

/-- The rounds in which a worker got something are over for all. -/
theorem Follows.le_generation (hf : Follows P s)
    (hlog : s.hub.log i = P.log r i ∨ s.hub.log i = P.log r i ++ [.error .aborted]) :
    3 * r ≤ s.hub.generation := by
  cases r with
  | zero => exact Nat.zero_le _
  | succ q =>
    have hlast : (P.log (q + 1) i)[q]? = some (.ok (P.payloads.due q i)) := by
      rw [Program.log_succ, List.getElem?_append_right (by simp)]
      simp
    have hfound : (s.hub.log i)[q]? = some (.ok (P.payloads.due q i)) := by
      obtain hlog | hlog := hlog
      · rw [hlog, hlast]
      · rw [hlog, List.getElem?_append_left (by simp), hlast]
    exact hf.reachable.synced.le_of_ok hfound

/-- A round that a worker has not entered, or was told of an abort in, is not over for anybody. -/
theorem Follows.generation_lt (hf : Follows P s) (hidle : s.hub.place i = .idle)
    (hlog : s.hub.log i = P.log r i ∨ s.hub.log i = P.log r i ++ [.error .aborted]) :
    s.hub.generation < 3 * (r + 1) := by
  have hsynced := hf.reachable.synced
  obtain hlog | hlog := hlog
  · obtain hin | hexpelled := hsynced.partner i
    · have hgeneration := hin.generation_of hidle rfl
      rw [hlog, Program.length_log, Place.index] at hgeneration
      omega
    · have hlt := hexpelled.generation_lt
      rw [hlog, Program.length_log] at hlt
      omega
  · have hfound : (s.hub.log i)[r]? = some (.error .aborted) := by
      rw [hlog, List.getElem?_append_right (by simp)]
      simp
    exact (hsynced.lt_of_error hfound).2

/-- No more than the round of a worker is over for anybody. -/
theorem Follows.generation_le (hf : Follows P s) (hlog : s.hub.log i = P.log r i) :
    s.hub.generation ≤ 3 * (r + 1) := by
  obtain hin | hexpelled := hf.reachable.synced.partner i
  · have hindex := (s.hub.place i).index_lt
    have hmet : s.hub.met i = 3 * r + (s.hub.place i).index := by
      rw [Hub.met, hlog, Program.length_log]
    unfold Hub.InStep at hin
    split at hin <;> omega
  · have hlt := hexpelled.generation_lt
    rw [hlog, Program.length_log] at hlt
    omega

/-- A round in which a worker waits for others is not over for anybody. -/
theorem Follows.generation_lt_of_waiting (hf : Follows P s) {meeting : Meeting}
    {received : Option (List T)} (hplace : s.hub.place i = .waiting meeting s.hub.generation received)
    (hlog : s.hub.log i = P.log r i) : s.hub.generation < 3 * (r + 1) := by
  have hsince : (s.hub.place i).since? = some s.hub.generation := by rw [hplace]; rfl
  obtain hin | hexpelled := hf.reachable.synced.partner i
  · have hmet := (hin.of_waiting hsince).1
    have hindex := (s.hub.place i).index_lt
    rw [Hub.met, hlog, Program.length_log] at hmet
    omega
  · rw [Place.since?_of_isEarly hexpelled.isEarly] at hsince
    cases hsince

end Segment

section Complete

/-- A worker without a next step has ended, or it waits for others. -/
theorem Follows.ended_or_waiting (hf : Follows P s) (hnone : s.advance P i = none) :
    (∃ outcome, s.status i = .ended outcome) ∨ s.status i = .running ∧ s.hub.aborted = false ∧
      ∃ meeting received, s.hub.place i = .waiting meeting s.hub.generation received := by
  obtain ⟨r, -, hstage⟩ := hf.stage i
  have hwithin (hlog : s.hub.log i = P.log r i) (hnone : s.within P i = none) :
      s.hub.aborted = false ∧
        ∃ meeting received, s.hub.place i = .waiting meeting s.hub.generation received := by
    rw [within_eq hlog, Option.map_eq_none_iff] at hnone
    exact Hub.waiting_of_advance_eq_none hnone
  unfold System.advance at hnone
  generalize hlog : s.hub.log i = log at hstage hnone hwithin
  generalize hstatus : s.status i = status at hstage hnone
  generalize hplace : s.hub.place i = place at hstage hnone hwithin
  cases hstage with
  | between =>
    rw [Program.all_log] at hnone
    cases haction : P i (P.history r i) with
    | enter row =>
      simp only [haction] at hnone
      exact .inr ⟨rfl, hwithin rfl hnone⟩
    | finish value => simp [haction] at hnone
    | fail cause => simp [haction] at hnone
  | inside hinside henters =>
    cases place with
    | idle => exact absurd rfl hinside
    | _ => exact .inr ⟨rfl, hwithin rfl hnone⟩
  | told henters htold =>
    rw [Program.all_log_append_error] at hnone
    obtain rfl | rfl | rfl := htold
    · cases hnone
    · cases hnone
    · exact .inl ⟨_, rfl⟩
  | failed haction hfailed =>
    obtain rfl | rfl := hfailed
    · cases hnone
    · exact .inl ⟨_, rfl⟩
  | finished => exact .inl ⟨_, rfl⟩

/-- The segment of a worker without a next step. -/
theorem Follows.stage_of_stuck (hf : Follows P s) (hnone : s.advance P i = none) :
    (∀ q < s.hub.generation / 3, (P.action q i).Enters) ∧
      Stage P (s.hub.generation / 3) i (s.hub.place i) (s.hub.log i) (s.status i) := by
  obtain ⟨r, hbefore, hstage⟩ := hf.stage i
  have hle := hf.le_generation hstage.log_eq
  have hlt : s.hub.generation < 3 * (r + 1) := by
    obtain ⟨outcome, hended⟩ | ⟨hrunning, -, meeting, received, hplace⟩ := hf.ended_or_waiting hnone
    · refine hf.generation_lt ?_ hstage.log_eq
      rw [hended] at hstage
      exact hstage.idle_of_ended
    · have hlog : s.hub.log i = P.log r i := by
        rw [hrunning, hplace] at hstage
        generalize s.hub.log i = log at hstage ⊢
        cases hstage with
        | inside => rfl
      exact hf.generation_lt_of_waiting hplace hlog
  obtain rfl : r = s.hub.generation / 3 := by omega
  exact ⟨hbefore, hstage⟩

/-- A worker without a next step has finished, or it waits for others, unless the hub is aborted. -/
theorem Follows.finished_or_entered (hf : Follows P s) (hopen : s.hub.aborted = false)
    (hnone : s.advance P i = none) :
    (∃ value, s.status i = .ended (.ok value) ∧ P.action (s.hub.generation / 3) i = .finish value) ∨
      (P.action (s.hub.generation / 3) i).Enters ∧ (s.hub.place i).since? = some s.hub.generation := by
  have hstage := (hf.stage_of_stuck hnone).2
  obtain ⟨outcome, hended⟩ | ⟨hrunning, -, meeting, received, hplace⟩ := hf.ended_or_waiting hnone
  · left
    cases outcome with
    | error cause =>
      rw [hf.aborted_of_ended hended] at hopen
      cases hopen
    | ok value =>
      refine ⟨value, hended, ?_⟩
      rw [hended] at hstage
      have houtcome := hstage.outcome_eq
      cases haction : P.action (s.hub.generation / 3) i with
      | finish value =>
        rw [haction] at houtcome
        cases houtcome
        rfl
      | enter row =>
        rw [haction] at houtcome
        cases houtcome
      | fail cause =>
        rw [haction] at houtcome
        cases houtcome
  · right
    rw [hrunning, hplace] at hstage
    rw [hplace]
    generalize s.hub.log i = log at hstage
    cases hstage with
    | inside _ henters => exact ⟨henters, rfl⟩

/-- When no worker has a next step, all of them have ended. -/
theorem Follows.ended_of_complete (hf : Follows P s) (horderly : P.Orderly) (hcomplete : s.Complete P)
    (i : Fin K) : ∃ outcome, s.status i = .ended outcome := by
  by_contra hnot
  obtain ⟨-, hopen, -⟩ := (hf.ended_or_waiting (hcomplete i)).resolve_left hnot
  have hstands (j : Fin K) := hf.finished_or_entered hopen (hcomplete j)
  obtain ⟨value, hended, -⟩ | ⟨⟨row, hrow⟩, -⟩ := hstands i
  · exact hnot ⟨_, hended⟩
  -- Nobody fails in this segment, so that nobody finishes in it, and all wait.
  have hwaits (j : Fin K) : (s.hub.place j).since? = some s.hub.generation := by
    obtain ⟨value, -, hfinish⟩ | ⟨-, hsince⟩ := hstands j
    · have hbefore (r : Nat) (hr : r < s.hub.generation / 3) (k : Fin K) : (P.action r k).Enters :=
        (hf.stage_of_stuck (hcomplete k)).1 r hr
      obtain ⟨k, cause, hfail⟩ := horderly _ hbefore j i value row hfinish hrow
      obtain ⟨other, -, hk⟩ | ⟨⟨other, hk⟩, -⟩ := hstands k
      · cases hfail.symm.trans hk
      · cases hfail.symm.trans hk
    · exact hsince
  have harrived := hf.reachable.arrived_lt i.pos
  have hall : s.hub.waiters = Finset.univ := by
    refine Finset.eq_univ_of_forall fun j => ?_
    exact Finset.mem_filter.2 ⟨Finset.mem_univ j, hwaits j⟩
  rw [hf.reachable.synced.arrived_eq hopen, hall, Finset.card_univ, Fintype.card_fin] at harrived
  exact Nat.lt_irrefl K harrived

/-- The segment in which no worker has a next step any more is the one in which they stop. -/
theorem Follows.stops (hf : Follows P s) (horderly : P.Orderly) (hcomplete : s.Complete P) :
    P.Stops (s.hub.generation / 3) := by
  refine ⟨fun r hr i => (hf.stage_of_stuck (hcomplete i)).1 r hr, ?_⟩
  by_contra hnot
  rw [not_or] at hnot
  obtain ⟨hnotAll, hnotFail⟩ := hnot
  obtain ⟨i, hi⟩ := not_forall.1 hnotAll
  -- One that neither finishes nor fails was told of an abort, so that another one has failed.
  obtain ⟨-, hstage⟩ := hf.stage_of_stuck (hcomplete i)
  obtain ⟨outcome, hended⟩ := hf.ended_of_complete horderly hcomplete i
  have haborted : s.hub.aborted = true := by
    rw [hended] at hstage
    have houtcome := hstage.outcome_eq
    cases haction : P.action (s.hub.generation / 3) i with
    | finish value => exact absurd ⟨value, haction⟩ hi
    | fail cause => exact absurd ⟨i, cause, haction⟩ hnotFail
    | enter row =>
      rw [haction] at houtcome
      exact hf.aborted_of_ended (hended.trans (congrArg Status.ended houtcome))
  obtain ⟨j, r, cause, hfail, hlog⟩ := hf.fail_of_aborted haborted
  refine hnotFail ⟨j, cause, ?_⟩
  obtain heq | heq := (hf.stage_of_stuck (hcomplete j)).2.log_eq
  · obtain rfl := Program.log_inj (hlog.symm.trans heq)
    exact hfail
  · exact absurd (hlog.symm.trans heq) Program.log_ne_append_error

/-- When no worker has a next step, each of them has ended as in lock-step. -/
theorem Follows.status_eq (hf : Follows P s) (horderly : P.Orderly) (hcomplete : s.Complete P)
    {segment : Nat} (hstops : P.Stops segment) (i : Fin K) :
    s.status i = .ended (P.action segment i).outcome := by
  obtain rfl := hstops.eq (hf.stops horderly hcomplete) i.pos
  obtain ⟨outcome, hended⟩ := hf.ended_of_complete horderly hcomplete i
  have hstage := (hf.stage_of_stuck (hcomplete i)).2
  rw [hended] at hstage
  rw [hended, hstage.outcome_eq]

end Complete

section Termination

/-- The number of rounds before the last segment bounds the rounds of every worker. -/
theorem Follows.le_segment (hf : Follows P s) {segment : Nat} (hstops : P.Stops segment)
    (hlog : s.hub.log i = P.log r i ∨ s.hub.log i = P.log r i ++ [.error .aborted]) : r ≤ segment := by
  by_contra hnot
  have hle := hf.le_generation hlog
  -- Some worker does not enter the round after the last segment, and keeps the barrier from it.
  obtain ⟨j, hj⟩ : ∃ j, ¬(P.action segment j).Enters := by
    obtain hfinish | ⟨j, cause, hfail⟩ := hstops.here
    · refine ⟨i, fun ⟨row, hrow⟩ => ?_⟩
      obtain ⟨value, hvalue⟩ := hfinish i
      cases hvalue.symm.trans hrow
    · refine ⟨j, fun ⟨row, hrow⟩ => ?_⟩
      cases hfail.symm.trans hrow
  obtain ⟨q, hbefore, hstage⟩ := hf.stage j
  have hq : q ≤ segment := Nat.not_lt.1 fun hlt => hj (hbefore segment hlt)
  by_cases hidle : s.hub.place j = .idle
  · have hlt := hf.generation_lt hidle hstage.log_eq
    omega
  · obtain ⟨henters, hlog⟩ := hstage.of_inside hidle
    have hne : q ≠ segment := fun heq => hj (heq ▸ henters)
    have hlt := hf.generation_le hlog
    omega

/-- More than the number of steps that a worker takes up to the last segment. -/
def weight (segment : Nat) (s : System K T V) (i : Fin K) : Nat :=
  (segment + 1 - (s.hub.log i).length) * (4 * K + 10) + (s.hub.place i).ahead K + (s.status i).rank

theorem advance_cases (hstep : s.advance P i = some s') :
    s.status i = .running ∧ s.within P i = some s' ∨
      ∃ status, status.rank < (s.status i).rank ∧ (s' = s.set i status ∨ s' = s.abort.set i status) := by
  unfold System.advance at hstep
  split at hstep
  · cases hstep
  · next hstatus =>
    cases hstep
    refine .inr ⟨_, ?_, .inr rfl⟩
    rw [hstatus]
    exact Nat.zero_lt_one
  · next hstatus =>
    have hset {status : Status V} (hrank : status.rank < 2) :
        ∃ other : Status V, other.rank < (s.status i).rank ∧
          (s.set i status = s.set i other ∨ s.set i status = s.abort.set i other) := by
      refine ⟨status, ?_, .inl rfl⟩
      rw [hstatus]
      exact hrank
    split at hstep
    · cases hstep
      exact .inr (hset Nat.one_lt_two)
    · split at hstep
      · exact .inl ⟨hstatus, hstep⟩
      · cases hstep
        exact .inr (hset Nat.two_pos)
      · cases hstep
        exact .inr (hset Nat.one_lt_two)
    · exact .inl ⟨hstatus, hstep⟩

/-- A step of a worker in its round brings it forward. -/
theorem weight_within {segment : Nat} (hstep : s.within P i = some s')
    (hle : s.hub.place i ≠ .idle → (s.hub.log i).length ≤ segment) :
    weight segment s' i < weight segment s i ∧ ∀ j ≠ i, weight segment s' j = weight segment s j := by
  obtain ⟨hub, hhub, rfl⟩ := Option.map_eq_some_iff.1 hstep
  have hmove := Hub.Move.of_advance hhub
  refine ⟨?_, fun j hj => ?_⟩
  · by_cases hidle : s.hub.place i = .idle
    · obtain ⟨hplace, hlog⟩ := hmove.of_idle hidle
      have hrank := (hub.place i).rank_lt K
      simp only [weight, hlog, hidle, Place.ahead_idle, Place.ahead_of_ne hplace]
      omega
    · have hmore := hle hidle
      have hpos := Place.rank_pos (K := K) hidle
      obtain ⟨hplace, hlog⟩ | ⟨hplace, outcome, hlog⟩ := hmove.inside_or_left
      · obtain hleft | ⟨-, -, hlt⟩ := hmove.rank_lt hidle
        · rw [hlog] at hleft
          omega
        · simp only [weight, hlog, Place.ahead_of_ne hplace, Place.ahead_of_ne hidle]
          omega
      · have hrounds : segment + 1 - (s.hub.log i).length = segment - (s.hub.log i).length + 1 := by omega
        have hnext : segment + 1 - (hub.log i).length = segment - (s.hub.log i).length := by
          rw [hlog, List.length_append, List.length_singleton]
          omega
        simp only [weight, hrounds, hnext, hplace, Place.ahead_idle, Place.ahead_of_ne hidle, Nat.succ_mul]
        omega
  · obtain ⟨hplace, hlog⟩ := hmove.of_ne hj
    simp only [weight, hplace, hlog]

/-- A step of a worker that does nothing to the hub but abort it. -/
theorem weight_set {segment : Nat} {status : Status V} (hrank : status.rank < (s.status i).rank) :
    weight segment (s.set i status) i < weight segment s i ∧
      ∀ j ≠ i, weight segment (s.set i status) j = weight segment s j := by
  refine ⟨?_, fun j hj => ?_⟩
  · simp only [weight, set_hub, set_status, Function.update_self]
    omega
  · simp only [weight, set_hub, set_status, Function.update_of_ne hj]

theorem weight_abort (segment : Nat) (s : System K T V) : weight segment s.abort = weight segment s := rfl

/-- Every step brings a worker forward, and leaves the others where they are. -/
theorem Follows.weight_lt (hf : Follows P s) {segment : Nat} (hstops : P.Stops segment)
    (hstep : s.advance P i = some s') :
    weight segment s' i < weight segment s i ∧ ∀ j ≠ i, weight segment s' j = weight segment s j := by
  obtain ⟨-, hwithin⟩ | ⟨status, hrank, rfl | rfl⟩ := advance_cases hstep
  · refine weight_within hwithin fun hinside => ?_
    obtain ⟨r, -, hstage⟩ := hf.stage i
    obtain ⟨-, hlog⟩ := hstage.of_inside hinside
    rw [hlog, Program.length_log]
    exact hf.le_segment hstops (.inl hlog)
  · exact weight_set hrank
  · rw [← weight_abort segment s]
    exact weight_set hrank

/-- When there is a last segment, no run goes on for ever. -/
theorem Follows.acc (hf : Follows P s) {segment : Nat} (hstops : P.Stops segment) :
    Acc (fun later earlier => Step P earlier later) s := by
  -- All that is left to do for the workers together gets less with every step.
  generalize hsum : ∑ i, weight segment s i = n
  induction n using Nat.strongRecOn generalizing s with
  | ind n ih =>
    refine ⟨s, fun next ⟨i, hstep⟩ => ih _ ?_ (hf.advance hstep) rfl⟩
    obtain ⟨hlt, hsame⟩ := hf.weight_lt hstops hstep
    rw [← hsum]
    refine Finset.sum_lt_sum (fun j _ => ?_) ⟨i, Finset.mem_univ i, hlt⟩
    by_cases hj : j = i
    · subst hj
      exact hlt.le
    · exact (hsame j hj).le

end Termination

/-- Whatever the order of the steps, when no worker has a next step all of them have ended, with the
same outcomes in every order. They have ended in the first segment in which not all of them enter a
round. Those that fail there report their own errors, those that finish there their values, and all
others that the hub was aborted. If one order comes to an end, then so does every other one. The first
failure in the order of the workers is then the error of the first worker that fails, and if none fails
there are all values. -/
theorem schedule_independent (horderly : P.Orderly) (hreach : Reachable P s) (hcomplete : s.Complete P) :
    ∃ segment, P.Stops segment ∧ (∀ i, s.status i = .ended (P.action segment i).outcome) ∧
      (∀ other, Reachable P other → other.Complete P → other.status = s.status) ∧
      (∀ other, Reachable P other → Acc (fun later earlier => Step P earlier later) other) ∧
      (∀ values, (∀ i, P.action segment i = .finish (values i)) →
        Checker.firstFailure (List.ofFn fun i => (P.action segment i).outcome) = .ok (List.ofFn values)) ∧
      ∀ i cause, P.action segment i = .fail cause →
        (∀ j < i, ∀ other, P.action segment j ≠ .fail other) →
        Checker.firstFailure (List.ofFn fun i => (P.action segment i).outcome) = .error cause := by
  have hstops := hreach.follows.stops horderly hcomplete
  have hstatus := hreach.follows.status_eq horderly hcomplete hstops
  refine ⟨_, hstops, hstatus, fun other hother hended => ?_, fun other hother => ?_,
    fun values hvalues => ?_, fun i cause hfail hfirst => ?_⟩
  · funext i
    rw [hstatus, hother.follows.status_eq horderly hended hstops]
  · exact hother.follows.acc hstops
  · have hall : (List.ofFn fun i => (P.action (s.hub.generation / 3) i).outcome) =
        (List.ofFn values).map .ok := by
      rw [List.map_ofFn]
      refine congrArg List.ofFn (funext fun i => ?_)
      rw [hvalues]
      rfl
    rw [hall]
    exact Checker.firstFailure_of_ok _
  · refine Checker.firstFailure_of_first i ?_ cause.property fun j hj => ?_
    · rw [hfail]
      rfl
    · cases haction : P.action (s.hub.generation / 3) j with
      | enter row => exact .inr rfl
      | finish value => exact .inl ⟨value, rfl⟩
      | fail other => exact absurd haction (hfirst j hj other)

/-- Three workers that send their numbers to all in the first round. After it the first one enters
another round, the second one fails, and the third one finishes with what it has received. -/
def parting : Program 3 Nat Nat := fun i received =>
  match received, i with
  | [], _ => .enter fun _ => some i
  | _, 0 => .enter fun _ => none
  | _, 1 => .fail ⟨.unboundVariable "x", by decide⟩
  | _, 2 => .finish (received.flatMap (·.getD [])).length

theorem orderly_parting : parting.Orderly := by
  intro segment _ i j value row hfinish _
  cases segment with
  | zero =>
    rw [Program.action, Program.history, parting] at hfinish
    cases hfinish
  | succ r =>
    -- What a worker has received is not empty after a round.
    have hone (received : List (Option (List Nat))) (last : Option (List Nat)) :
        parting 1 (received ++ [last]) = .fail ⟨.unboundVariable "x", by decide⟩ := by
      cases received <;> rfl
    exact ⟨1, _, hone _ _⟩

/-- A run in which the first worker waits for the others when the hub is aborted. All other runs end in
the same way. -/
theorem schedule_independent_parting : ∃ s : System 3 Nat Nat, parting.Orderly ∧ Reachable parting s ∧
    s.Complete parting ∧ s.status 0 = .ended (.error (.channel .aborted)) ∧
    s.status 1 = .ended (.error (.unboundVariable "x")) ∧ s.status 2 = .ended (.ok 3) ∧
    ∀ other, Reachable parting other → other.Complete parting → other.status = s.status := by
  have hrun : ∃ s : System 3 Nat Nat, run parting
      (List.replicate 8 0 ++ List.replicate 8 1 ++ List.replicate 13 2 ++ List.replicate 6 0 ++
        List.replicate 10 1 ++ List.replicate 5 2 ++ List.replicate 6 0 ++ [1, 2] ++
        List.replicate 5 0 ++ [1, 1, 2, 0, 0, 0]) (start 3 Nat Nat) = some s ∧
      s.status 0 = .ended (.error (.channel .aborted)) ∧
      s.status 1 = .ended (.error (.unboundVariable "x")) ∧ s.status 2 = .ended (.ok 3) :=
    ⟨_, rfl, rfl, rfl, rfl⟩
  obtain ⟨s, hrun, hfirst, hsecond, hthird⟩ := hrun
  have hcomplete : s.Complete parting := by
    intro i
    unfold advance
    match i with
    | 0 => rw [hfirst]
    | 1 => rw [hsecond]
    | 2 => rw [hthird]
  obtain ⟨_, _, _, hsame, _⟩ := schedule_independent orderly_parting (steps_of_run hrun) hcomplete
  exact ⟨s, orderly_parting, steps_of_run hrun, hcomplete, hfirst, hsecond, hthird, hsame⟩

end System

end ColoredCtl

import ColoredCtl.Channel.Exchange
import Mathlib.Logic.Function.Basic
import Mathlib.Logic.Relation
import Mathlib.Tactic.Simps.Basic

/-!
A hub: the rounds of an exchange, step by step.

The partners of an exchange share a slot for each pair of them, a flag and a barrier, and each of them
goes through its rounds at its own pace. In a round a partner writes its row into the slots, and sets
the flag before it writes a payload. It takes the payloads of its column if the flag is set. Then it
clears its row, and the first partner clears the flag as well. After each of the three it waits at the
barrier until all others have come.

The hub can be aborted at any time. A partner that comes to the barrier afterwards, or that still waits
there, leaves the round without a result.

A step is what a partner does to the shared state at once. `advance` takes the next step of a partner;
the steps of different partners may follow each other in any order. `Move` says what a step can be.
-/

namespace ColoredCtl

/-- Why a round has no result. -/
inductive Aborted where
  | aborted
deriving DecidableEq, Repr

/-- What a partner has of a round: the payloads for it, or nothing if nobody sent any. -/
abbrev Outcome (T : Type) := Except Aborted (Option (List T))

/-- The payloads of all rounds, by sender and receiver. -/
abbrev Payloads (K : Nat) (T : Type) := Nat → Fin K → Fin K → Option T

/-- What all partners of a round have done when they meet at the barrier. -/
inductive Meeting where
  | written
  | taken
  | cleared
deriving DecidableEq, Repr

/-- Where a partner is in its round. -/
inductive Place (T : Type) where
  /-- Between two rounds. -/
  | idle
  /-- Writing its row, from a receiver on. The flag may be set for the payload that is next. -/
  | sending (receiver : Nat) (marked : Bool)
  /-- About to look at the flag. -/
  | looking
  /-- Taking its column, from a sender on, if there is anything to take. -/
  | taking (sender : Nat) (received : Option (List T))
  /-- Clearing its row, from a receiver on. -/
  | clearing (receiver : Nat) (received : Option (List T))
  /-- At the barrier, since the given generation. -/
  | waiting (meeting : Meeting) (since : Nat) (received : Option (List T))

/-- The shared state of all partners, with the place of each of them and the outcomes of its rounds. -/
structure Hub (K : Nat) (T : Type) where
  /-- What a sender has written for a receiver. -/
  slots : Fin K → Fin K → Option T
  sent : Bool
  /-- Number of partners that have come to the barrier in this generation. -/
  arrived : Nat
  /-- Number of times that all partners have met. -/
  generation : Nat
  aborted : Bool
  place : Fin K → Place T
  log : Fin K → List (Outcome T)

namespace Hub

variable {K : Nat} {T : Type}

/-- Before the first round. -/
def start (K : Nat) (T : Type) : Hub K T where
  slots := fun _ _ => none
  sent := false
  arrived := 0
  generation := 0
  aborted := false
  place := fun _ => .idle
  log := fun _ => []

@[simps] def goTo (h : Hub K T) (i : Fin K) (p : Place T) : Hub K T :=
  { h with place := Function.update h.place i p }

@[simps] def setSlot (h : Hub K T) (sender receiver : Fin K) (payload : Option T) : Hub K T :=
  { h with slots := Function.update h.slots sender (Function.update (h.slots sender) receiver payload) }

@[simps] def setSent (h : Hub K T) (sent : Bool) : Hub K T := { h with sent }

/-- The partner ends its round. -/
@[simps] def leave (h : Hub K T) (i : Fin K) (outcome : Outcome T) : Hub K T :=
  { h with place := Function.update h.place i .idle
           log := Function.update h.log i (h.log i ++ [outcome]) }

/-- The partner goes on behind the barrier. -/
def proceed (h : Hub K T) (i : Fin K) (meeting : Meeting) (received : Option (List T)) : Hub K T :=
  match meeting with
  | .written => h.goTo i .looking
  | .taken => h.goTo i (.clearing 0 received)
  | .cleared => h.leave i (.ok received)

/-- The last partner has come to the barrier, and the next generation begins. -/
@[simps] def complete (h : Hub K T) : Hub K T := { h with arrived := 0, generation := h.generation + 1 }

/-- The partner comes to the barrier. -/
def arrive (h : Hub K T) (i : Fin K) (meeting : Meeting) (received : Option (List T)) : Hub K T :=
  if h.aborted then h.leave i (.error .aborted)
  else if h.arrived + 1 = K then h.complete.proceed i meeting received
  else { h.goTo i (.waiting meeting h.generation received) with arrived := h.arrived + 1 }

@[simps] def abort (h : Hub K T) : Hub K T := { h with aborted := true }

/-- The next step of a partner. Only a partner that waits at the barrier may have none. -/
def advance (M : Payloads K T) (h : Hub K T) (i : Fin K) : Option (Hub K T) :=
  match h.place i with
  | .idle => some (h.goTo i (.sending 0 false))
  | .sending receiver marked =>
    if hlt : receiver < K then
      let payload := M (h.log i).length i ⟨receiver, hlt⟩
      if payload.isSome && !marked then some ((h.setSent true).goTo i (.sending receiver true))
      else some ((h.setSlot i ⟨receiver, hlt⟩ payload).goTo i (.sending (receiver + 1) false))
    else some (h.arrive i .written none)
  | .looking => some (h.goTo i (.taking 0 (if h.sent then some [] else none)))
  | .taking _ none => some (h.arrive i .taken none)
  | .taking sender (some payloads) =>
    if hlt : sender < K then
      let payload := h.slots ⟨sender, hlt⟩ i
      some ((h.setSlot ⟨sender, hlt⟩ i none).goTo i
        (.taking (sender + 1) (some (payloads ++ payload.toList))))
    else some (h.arrive i .taken (some payloads))
  | .clearing receiver received =>
    if hlt : receiver < K then
      some ((h.setSlot i ⟨receiver, hlt⟩ none).goTo i (.clearing (receiver + 1) received))
    else if receiver = K ∧ i.val = 0 then
      some ((h.setSent false).goTo i (.clearing (receiver + 1) received))
    else some (h.arrive i .cleared received)
  | .waiting meeting since received =>
    if h.generation ≠ since then some (h.proceed i meeting received)
    else if h.aborted then some (h.leave i (.error .aborted))
    else none

/-- One step of any partner, or an abort. -/
inductive Step (M : Payloads K T) : Hub K T → Hub K T → Prop
  | advance {h h' : Hub K T} (i : Fin K) (hstep : h.advance M i = some h') : Step M h h'
  | abort (h : Hub K T) : Step M h h.abort

/-- Any number of steps. -/
abbrev Steps (M : Payloads K T) : Hub K T → Hub K T → Prop := Relation.ReflTransGen (Step M)

/-- What the partners can come to, whatever the order of their steps. -/
def Reachable (M : Payloads K T) (h : Hub K T) : Prop := Steps M (start K T) h

/-- The steps of the partners in a given order, where nothing stands for an abort. -/
def run (M : Payloads K T) : List (Option (Fin K)) → Hub K T → Option (Hub K T)
  | [], h => some h
  | some i :: rest, h => (h.advance M i).bind (run M rest)
  | none :: rest, h => run M rest h.abort

theorem steps_of_run {M : Payloads K T} {order : List (Option (Fin K))} {h h' : Hub K T}
    (hrun : run M order h = some h') : Steps M h h' := by
  induction order generalizing h with
  | nil =>
    cases hrun
    exact .refl
  | cons turn rest ih =>
    cases turn with
    | none => exact .head (.abort h) (ih hrun)
    | some i =>
      obtain ⟨next, hnext, hrest⟩ := Option.bind_eq_some_iff.1 hrun
      exact .head (.advance i hnext) (ih hrest)

/-- Where a partner comes to the barrier with its next step, and what for. -/
inductive Comes (i : Fin K) : Place T → Meeting → Option (List T) → Prop
  | written {receiver : Nat} {marked : Bool} (hdone : K ≤ receiver) :
      Comes i (.sending receiver marked) .written none
  | nothing {sender : Nat} : Comes i (.taking sender none) .taken none
  | taken {sender : Nat} {payloads : List T} (hdone : K ≤ sender) :
      Comes i (.taking sender (some payloads)) .taken (some payloads)
  | cleared {receiver : Nat} {received : Option (List T)} (hdone : K ≤ receiver)
      (hreset : i.val = 0 → K < receiver) : Comes i (.clearing receiver received) .cleared received

/-- What the step of a partner can be. -/
inductive Move (M : Payloads K T) (h : Hub K T) (i : Fin K) : Hub K T → Prop
  | enter (hplace : h.place i = .idle) : Move M h i (h.goTo i (.sending 0 false))
  | mark {receiver : Fin K} (hplace : h.place i = .sending receiver false)
      (hpayload : (M (h.log i).length i receiver).isSome = true) :
      Move M h i ((h.setSent true).goTo i (.sending receiver true))
  | write {receiver : Fin K} {marked : Bool} (hplace : h.place i = .sending receiver marked)
      (hmarked : (M (h.log i).length i receiver).isSome = true → marked = true) :
      Move M h i ((h.setSlot i receiver (M (h.log i).length i receiver)).goTo i
        (.sending (receiver + 1) false))
  | look (hplace : h.place i = .looking) :
      Move M h i (h.goTo i (.taking 0 (if h.sent then some [] else none)))
  | take {sender : Fin K} {payloads : List T} (hplace : h.place i = .taking sender (some payloads)) :
      Move M h i ((h.setSlot sender i none).goTo i
        (.taking (sender + 1) (some (payloads ++ (h.slots sender i).toList))))
  | clear {receiver : Fin K} {received : Option (List T)}
      (hplace : h.place i = .clearing receiver received) :
      Move M h i ((h.setSlot i receiver none).goTo i (.clearing (receiver + 1) received))
  | reset {received : Option (List T)} (hplace : h.place i = .clearing K received) :
      Move M h i ((h.setSent false).goTo i (.clearing (K + 1) received))
  | wait {meeting : Meeting} {received : Option (List T)} (hcomes : Comes i (h.place i) meeting received)
      (hopen : h.aborted = false) (hmore : h.arrived + 1 ≠ K) :
      Move M h i { h.goTo i (.waiting meeting h.generation received) with arrived := h.arrived + 1 }
  | last {meeting : Meeting} {received : Option (List T)} (hcomes : Comes i (h.place i) meeting received)
      (hopen : h.aborted = false) (hall : h.arrived + 1 = K) :
      Move M h i (h.complete.proceed i meeting received)
  | refuse {meeting : Meeting} {received : Option (List T)}
      (hcomes : Comes i (h.place i) meeting received) (haborted : h.aborted = true) :
      Move M h i (h.leave i (.error .aborted))
  | pass {meeting : Meeting} {since : Nat} {received : Option (List T)}
      (hplace : h.place i = .waiting meeting since received) (hover : h.generation ≠ since) :
      Move M h i (h.proceed i meeting received)
  | giveUp {meeting : Meeting} {since : Nat} {received : Option (List T)}
      (hplace : h.place i = .waiting meeting since received) (hsame : h.generation = since)
      (haborted : h.aborted = true) : Move M h i (h.leave i (.error .aborted))

theorem Move.of_arrive {M : Payloads K T} {h : Hub K T} {i : Fin K} {meeting : Meeting}
    {received : Option (List T)} (hcomes : Comes i (h.place i) meeting received) :
    Move M h i (h.arrive i meeting received) := by
  unfold arrive
  split
  · next haborted => exact .refuse hcomes haborted
  · next hopen =>
    rw [Bool.not_eq_true] at hopen
    split
    · next hall => exact .last hcomes hopen hall
    · next hmore => exact .wait hcomes hopen hmore

theorem Move.of_advance {M : Payloads K T} {h h' : Hub K T} {i : Fin K}
    (hstep : h.advance M i = some h') : Move M h i h' := by
  unfold advance at hstep
  split at hstep
  · next hplace =>
    cases hstep
    exact .enter hplace
  · next receiver marked hplace =>
    split at hstep
    · next hlt =>
      obtain ⟨receiver, rfl⟩ : ∃ j : Fin K, receiver = j := ⟨⟨receiver, hlt⟩, rfl⟩
      simp only at hstep
      split at hstep
      · next hmark =>
        cases hstep
        rw [Bool.and_eq_true, Bool.not_eq_true'] at hmark
        rw [hmark.2] at hplace
        exact .mark hplace hmark.1
      · next hmark =>
        cases hstep
        refine .write hplace fun hpayload => ?_
        rw [Bool.and_eq_true, Bool.not_eq_true', not_and, Bool.not_eq_false] at hmark
        exact hmark hpayload
    · next hlt =>
      cases hstep
      exact .of_arrive (by rw [hplace]; exact .written (Nat.not_lt.1 hlt))
  · next hplace =>
    cases hstep
    exact .look hplace
  · next sender hplace =>
    cases hstep
    exact .of_arrive (by rw [hplace]; exact .nothing)
  · next sender payloads hplace =>
    split at hstep
    · next hlt =>
      obtain ⟨sender, rfl⟩ : ∃ j : Fin K, sender = j := ⟨⟨sender, hlt⟩, rfl⟩
      cases hstep
      exact .take hplace
    · next hlt =>
      cases hstep
      exact .of_arrive (by rw [hplace]; exact .taken (Nat.not_lt.1 hlt))
  · next receiver received hplace =>
    split at hstep
    · next hlt =>
      obtain ⟨receiver, rfl⟩ : ∃ j : Fin K, receiver = j := ⟨⟨receiver, hlt⟩, rfl⟩
      cases hstep
      exact .clear hplace
    · next hlt =>
      split at hstep
      · next hreset =>
        obtain ⟨rfl, _⟩ := hreset
        cases hstep
        exact .reset hplace
      · next hreset =>
        cases hstep
        exact .of_arrive (by rw [hplace]; exact .cleared (by omega) (by omega))
  · next meeting since received hplace =>
    split at hstep
    · next hover =>
      cases hstep
      exact .pass hplace hover
    · next hsame =>
      split at hstep
      · next haborted =>
        cases hstep
        exact .giveUp hplace (not_not.1 hsame) haborted
      · cases hstep

end Hub

end ColoredCtl

import ColoredCtl.Channel.Medium
import ColoredCtl.Check.Error

/-!
Workers that meet in collective rounds.

A `Worker` is a computation whose only effect is to take part in a round: it says what it sends, and
goes on with what it receives. A crew of workers runs in lock-step: all of them compute up to their
next round, then the round is held. The run ends when a worker fails or all are done. A worker that
waits for a round when another one fails is told that the exchange was aborted.
-/

namespace ColoredCtl

/-- A computation that takes part in rounds. -/
inductive Worker (C : Type) (α : Type) where
  | done (result : α)
  | fail (cause : Failure CheckError)
  | meet (out : Outgoing C) (resume : Incoming C → Worker C α)

namespace Worker

variable {C α β : Type}

def bind : Worker C α → (α → Worker C β) → Worker C β
  | .done a, next => next a
  | .fail cause, _ => .fail cause
  | .meet out resume, next => .meet out fun incoming => (resume incoming).bind next

instance : Monad (Worker C) where
  pure := .done
  bind := bind

theorem bind_done (w : Worker C α) : w.bind .done = w := by
  induction w with
  | done a => rfl
  | fail cause => rfl
  | meet out resume ih => exact congrArg (Worker.meet out) (funext ih)

theorem bind_assoc {γ : Type} (w : Worker C α) (f : α → Worker C β) (g : β → Worker C γ) :
    (w.bind f).bind g = w.bind fun a => (f a).bind g := by
  induction w with
  | done a => rfl
  | fail cause => rfl
  | meet out resume ih => exact congrArg (Worker.meet out) (funext ih)

instance : LawfulMonad (Worker C) :=
  LawfulMonad.mk' (Worker C) bind_done (fun _ _ => rfl) bind_assoc

/-- A computation without rounds. -/
def attempt (x : Attempt α) : Worker C α :=
  match x with
  | .ok a => .done a
  | .error cause => .fail cause

instance : MonadLift Attempt (Worker C) := ⟨attempt⟩

/-- A computation without rounds and errors of its own. -/
instance : MonadLift (Except Misuse) (Worker C) := ⟨fun x => attempt (x.mapError .misuse)⟩

/-- One round. -/
def exchange (out : Outgoing C) : Worker C (Incoming C) := .meet out .done

/-- What a worker has come to when the run ends. -/
def outcome : Worker C α → Attempt α
  | .done a => .ok a
  | .fail cause => .error cause
  | .meet _ _ => .error (.error (.channel .aborted))

/-- What a worker sends, if it waits for a round. -/
def out? : Worker C α → Option (Outgoing C)
  | .meet out _ => some out
  | _ => none

/-- The worker after a round. -/
def receive (w : Worker C α) (result : Except (Failure ChannelError) (Incoming C)) : Worker C α :=
  match w, result with
  | .meet _ resume, .ok incoming => resume incoming
  | .meet _ _, .error cause => .fail (cause.map .channel)
  | w, _ => w

end Worker

namespace Crew

variable {C α : Type}

/-- Runs a crew of workers, the first of which is given apart, to the end. A round is held when all
of them wait for one; if an endpoint fails in it, the run ends where the others have come to by
their next round. -/
def runFrom (medium : Medium C) : Worker C α → List (Worker C α) → List (Attempt α)
  | .meet out resume, rest =>
    match rest.mapM Worker.out? with
    | none => (Worker.meet out resume :: rest).map Worker.outcome
    | some outs =>
      match medium.round false ((out :: outs).map some) with
      | .ok incoming :: results =>
        let rest := List.zipWith Worker.receive rest results
        if results.all Except.isOk then runFrom medium (resume incoming) rest
        else (resume incoming :: rest).map Worker.outcome
      | results => (List.zipWith Worker.receive (.meet out resume :: rest) results).map Worker.outcome
  | w, rest => (w :: rest).map Worker.outcome

/-- Runs a crew of workers to the end. -/
def run (medium : Medium C) : List (Worker C α) → List (Attempt α)
  | [] => []
  | w :: rest => runFrom medium w rest

end Crew

end ColoredCtl

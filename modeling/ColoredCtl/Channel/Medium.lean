import ColoredCtl.Channel.Exchange
import ColoredCtl.Channel.Frame

/-!
Channels: endpoints that exchange packets in collective rounds.

The medium of a channel says how packets travel: not at all (there is one endpoint), as they are, or
as frames, each endpoint with an algebra of its own. An endpoint can refuse what it is asked to send;
then it does not take part, and the others can only wait until the channel is aborted. What it receives
as a frame it may fail to read; the round is then over for the others already.
-/

namespace ColoredCtl

open Color

/-- What an endpoint sends, by destination. -/
abbrev Outgoing (C : Type) := List (Option (Packet C))

/-- What an endpoint receives; nothing when no endpoint sent anything. -/
abbrev Incoming (C : Type) := Option (Packet C)

/-- Number of entries sent. -/
def Outgoing.size {C : Type} (out : Outgoing C) : Nat :=
  out.foldl (fun total packet => total + (packet.map List.length).getD 0) 0

/-- Nothing for any destination. -/
def Outgoing.nothing {C : Type} (count : Nat) : Outgoing C := List.replicate count none

/-- How an endpoint turns a packet into what travels, and back. -/
structure Carrier (C T : Type) where
  pack : Packet C → Except (Failure ChannelError) T
  unpack : T → Except (Failure ChannelError) (Packet C)

namespace Carrier

variable {C T : Type}

/-- Packets travel as they are. -/
def plain : Carrier C (Packet C) := { pack := .ok, unpack := .ok }

/-- Packets travel as frames. -/
def framed (A : Algebra C) : Carrier C (List UInt8) :=
  { pack := Frame.encode A, unpack := fun bytes => Failure.lift (Frame.decode A bytes) }

/-- The row that an endpoint brings to a round, if it has the right length and all can be packed. -/
def prepare (carrier : Carrier C T) (count : Nat) (out : Outgoing C) :
    Except (Failure ChannelError) (Exchange.Row T) := do
  if out.length ≠ count then throw (.error (.shape count out.length))
  out.mapM fun packet =>
    match packet with
    | none => return none
    | some packet => return some (← carrier.pack packet)

/-- The entries that an endpoint receives, sender by sender. -/
def accept (carrier : Carrier C T) :
    Option (List T) → Except (Failure ChannelError) (Incoming C)
  | none => return none
  | some parts => return some (← parts.mapM carrier.unpack).flatten

end Carrier

/-- The row of an endpoint that takes part; nothing for one that aborts or refuses. -/
def takePart {ε T : Type} : Option (Except ε T) → Option T
  | some (.ok row) => some row
  | _ => none

/-- One collective round between endpoints with the given carriers. A call without outgoing packets
aborts. -/
def meet {C T : Type} (carriers : List (Carrier C T)) (aborted : Bool)
    (calls : List (Option (Outgoing C))) : List (Except (Failure ChannelError) (Incoming C)) :=
  let prepared := (carriers.zip calls).map fun (carrier, call) =>
    call.map (carrier.prepare carriers.length)
  match Exchange.round aborted (prepared.map takePart) with
  | some deliveries => (carriers.zip deliveries).map fun (carrier, parts) => carrier.accept parts
  | none => prepared.map fun row =>
    match row with
    | some (.error cause) => .error cause
    | _ => .error (.error .aborted)

/-- How the endpoints of a channel are connected. -/
inductive Medium (C : Type) where
  /-- One endpoint, with nobody to send to. -/
  | solo
  /-- Packets travel as they are. -/
  | shared (count : Nat)
  /-- Packets travel as frames, written and read with the algebra of the endpoint. -/
  | framed (algebras : List (Algebra C))

namespace Medium

variable {C : Type}

/-- Number of endpoints. -/
def count : Medium C → Nat
  | .solo => 1
  | .shared count => count
  | .framed algebras => algebras.length

/-- A round of the only endpoint: it may send nothing, and gets that back. -/
def alone (out : Outgoing C) : Except (Failure ChannelError) (Incoming C) :=
  if out.length ≠ 1 then .error (.error (.shape 1 out.length))
  else if out.size ≠ 0 then .error (.error (.noPeers out.size))
  else .ok (out.head?.join)

/-- One collective round: what each endpoint gets. The only endpoint of a channel cannot abort
anybody. -/
def round (medium : Medium C) (aborted : Bool) (calls : List (Option (Outgoing C))) :
    List (Except (Failure ChannelError) (Incoming C)) :=
  match medium with
  | .solo => calls.map fun call => (call.map alone).getD (.error (.error .aborted))
  | .shared count => meet (List.replicate count Carrier.plain) aborted calls
  | .framed algebras => meet (algebras.map Carrier.framed) aborted calls

/-- The kind of the endpoints as text. -/
def name : Medium C → String
  | .solo => "NoOpChannel"
  | .shared _ => "SharedMemoryChannel"
  | .framed _ => "SerializedChannel"

end Medium

/-- What an endpoint has counted. The counters are machine words, and start again from zero when they
overflow. -/
structure Traffic where
  rounds : UInt64 := 0
  sent : UInt64 := 0
  received : UInt64 := 0
deriving DecidableEq, Repr

def Traffic.text (t : Traffic) : String :=
  s!"ChannelStats \x7b rounds: {t.rounds}, sent: {t.sent}, received: {t.received} \x7d"

/-- The endpoints of a channel between two rounds. -/
structure Channel (C : Type) where
  medium : Medium C
  traffic : List Traffic
  aborted : Bool := false

namespace Channel

variable {C : Type}

/-- The endpoints before the first round. -/
def new (medium : Medium C) : Except Misuse (Channel C) := do
  Exchange.reserve medium.count
  return { medium, traffic := List.replicate medium.count {} }

/-- What a call sends and receives, as far as it is counted. A round that fails is not, and the only
endpoint of a channel sends nothing. -/
def count (medium : Medium C) (t : Traffic) (call : Option (Outgoing C)) :
    Except (Failure ChannelError) (Incoming C) → Traffic
  | .error _ => t
  | .ok incoming =>
    match medium with
    | .solo => { t with rounds := t.rounds + 1 }
    | _ => { rounds := t.rounds + 1
             sent := t.sent + .ofNat ((call.map Outgoing.size).getD 0)
             received := t.received + .ofNat ((incoming.map List.length).getD 0) }

/-- One collective round: what each endpoint gets, and what it counts. -/
def round (channel : Channel C) (calls : List (Option (Outgoing C))) :
    Channel C × List (Except (Failure ChannelError) (Incoming C)) :=
  let results := channel.medium.round channel.aborted calls
  let traffic := (channel.traffic.zip (calls.zip results)).map fun (t, call, result) =>
    count channel.medium t call result
  ({ channel with traffic }, results)

/-- An endpoint aborts the channel. The only endpoint of a channel has nobody to abort. -/
def abort (channel : Channel C) : Channel C :=
  match channel.medium with
  | .solo => channel
  | _ => { channel with aborted := true }

/-- One collective round of endpoints that abort the channel when they fail. -/
def attempt (channel : Channel C) (calls : List (Option (Outgoing C))) :
    Channel C × List (Except (Failure ChannelError) (Incoming C)) :=
  let (channel, results) := channel.round calls
  (if results.all Except.isOk then channel else channel.abort, results)

/-- An endpoint as text. -/
def describe (channel : Channel C) (id : Nat) : String :=
  let stats := "stats: " ++ ((channel.traffic[id]?).getD {}).text
  let body :=
    match channel.medium with
    | .solo => stats
    | _ => s!"id: {id}, " ++ stats
  channel.medium.name ++ " \x7b " ++ body ++ " \x7d"

end Channel

end ColoredCtl

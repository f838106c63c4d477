import ColoredCtl.Partition.Format

namespace ColoredCtl

open Json

/-- How the workers exchange values. -/
inductive Transport where
  /-- As they are. -/
  | shared
  /-- As byte strings. -/
  | serialized
deriving DecidableEq, Repr

namespace Transport

def name : Transport → String
  | .shared => "shared_memory"
  | .serialized => "serialized"

def ofName? : String → Option Transport
  | "shared_memory" => some .shared
  | "serialized" => some .serialized
  | _ => none

def toJson (t : Transport) : Json := .string t.name

def ofJson? (j : Json) : Option Transport := do
  ofName? (← j.choice? false ["shared_memory", "serialized"])

end Transport

/-- How a check is run. The last three fields tune the use of threads and have no influence on
results. -/
structure Config where
  partitions : Nat := 1
  strategy : Strategy := .uniform
  transport : Transport := .shared
  parallel : Bool := false
  threads : Nat := 0
  threshold : Nat := 4096
deriving DecidableEq, Repr

namespace Config

def toJson (c : Config) : Json :=
  .object [("partitions", .natural c.partitions), ("strategy", c.strategy.toJson),
    ("transport", c.transport.toJson), ("parallel", .bool c.parallel),
    ("num_threads", .natural c.threads), ("parallel_threshold", .natural c.threshold)]

def ofJson? (j : Json) : Option Config := do
  let names :=
    ["partitions", "strategy", "transport", "parallel", "num_threads", "parallel_threshold"]
  let default : Config := {}
  guard (j.isRecord names)
  return {
    partitions := ← j.fieldOr names "partitions" default.partitions nat?
    strategy := ← j.fieldOr names "strategy" default.strategy Strategy.ofJson?
    transport := ← j.fieldOr names "transport" default.transport Transport.ofJson?
    parallel := ← j.fieldOr names "parallel" default.parallel bool?
    threads := ← j.fieldOr names "num_threads" default.threads nat?
    threshold := ← j.fieldOr names "parallel_threshold" default.threshold nat? }

end Config

end ColoredCtl

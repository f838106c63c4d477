import ColoredCtl.Json.Record
import ColoredCtl.Partition.Basic

namespace ColoredCtl

open Json

namespace Span

def toJson (r : Span) : Json := .object [("start", .natural r.start), ("end", .natural r.stop)]

/-- A range has no other fields than its ends. -/
def ofJson? (j : Json) : Option Span := do
  let names := ["start", "end"]
  guard (j.isRecord names)
  if let .object fields := j then guard (fields.all fun (name, _) => names.contains name)
  return ⟨← j.fieldOf names "start" nat?, ← j.fieldOf names "end" nat?⟩

end Span

namespace Strategy

def toJson : Strategy → Json
  | .hash => .object [("kind", .string "hash")]
  | .block size => .object [("kind", .string "block"), ("size", .natural size)]
  | .uniform => .object [("kind", .string "uniform")]
  | .interval ranges =>
    .object [("kind", .string "interval"), ("ranges", .array (ranges.map Span.toJson))]

/-- The strategy of a kind, from the record of its fields. -/
def ofFields? (kind : String) (j : Json) : Option Strategy :=
  match kind with
  | "hash" => if j.isRecord [] then some .hash else none
  | "uniform" => if j.isRecord [] then some .uniform else none
  | "block" => do
    guard (j.isRecord ["size"])
    return .block (← j.fieldOf ["size"] "size" nat?)
  | "interval" => do
    guard (j.isRecord ["ranges"])
    let items ← j.fieldOf ["ranges"] "ranges" items?
    return .interval (← items.mapM Span.ofJson?)
  | _ => none

def ofJson? (j : Json) : Option Strategy := do
  let (kind, body) ← j.variant? false "kind" ["hash", "block", "uniform", "interval"]
  ofFields? kind body

end Strategy

end ColoredCtl

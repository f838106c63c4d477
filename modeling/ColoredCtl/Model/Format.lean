import ColoredCtl.Json.Record
import ColoredCtl.Model.Atom

namespace ColoredCtl

open Json

namespace Facet

def name : Facet → String
  | .up => "up"
  | .down => "down"

def ofName? : String → Option Facet
  | "up" => some .up
  | "down" => some .down
  | _ => none

def toJson (f : Facet) : Json := .string f.name

def ofJson? (nested : Bool) (j : Json) : Option Facet := do
  ofName? (← j.choice? nested ["up", "down"])

/-- A facet, or nothing. -/
def optionalOfJson? (nested : Bool) : Json → Option (Option Facet)
  | .null => some none
  | j => (ofJson? nested j).map some

end Facet

namespace Flow

def ofName? : String → Option Flow
  | "in" => some .into
  | "out" => some .out
  | _ => none

def toJson (f : Flow) : Json := .string f.text

def ofJson? (nested : Bool) (j : Json) : Option Flow := do
  ofName? (← j.choice? nested ["in", "out"])

end Flow

namespace Comparison

def name : Comparison → String
  | .lt => "lt"
  | .le => "le"
  | .gt => "gt"
  | .ge => "ge"
  | .eq => "eq"
  | .ne => "ne"

def ofName? : String → Option Comparison
  | "lt" => some .lt
  | "le" => some .le
  | "gt" => some .gt
  | "ge" => some .ge
  | "eq" => some .eq
  | "ne" => some .ne
  | _ => none

def toJson (c : Comparison) : Json := .string c.name

def ofJson? (nested : Bool) (j : Json) : Option Comparison := do
  ofName? (← j.choice? nested (all.map name))

end Comparison

namespace Atom

/-- A threshold that is not a number has no JSON form and is written as `null`. -/
def toJson : Atom → Json
  | .float name comparison threshold =>
    .object [("kind", .string "float"), ("variable", .string name), ("cmp", comparison.toJson),
      ("threshold", .ofReal threshold)]
  | .transition name flow facet =>
    .object [("kind", .string "transition"), ("name", .string name), ("flow", flow.toJson),
      ("facet", facet.toJson)]

def floatOfJson? (j : Json) : Option Atom := do
  let names := ["variable", "cmp", "threshold"]
  guard (j.isRecord names)
  return .float (← j.fieldOf names "variable" string?) (← j.fieldOf names "cmp" (Comparison.ofJson? true))
    (← j.fieldOf names "threshold" real?)

def transitionOfJson? (j : Json) : Option Atom := do
  let names := ["name", "flow", "facet"]
  guard (j.isRecord names)
  return .transition (← j.fieldOf names "name" string?) (← j.fieldOf names "flow" (Flow.ofJson? true))
    (← j.fieldOf names "facet" (Facet.ofJson? true))

def ofJson? (nested : Bool) (j : Json) : Option Atom := do
  let (kind, body) ← j.variant? nested "kind" ["float", "transition"]
  if kind = "float" then floatOfJson? body else transitionOfJson? body

end Atom

end ColoredCtl

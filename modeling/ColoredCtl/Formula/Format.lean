import ColoredCtl.Formula.Basic
import ColoredCtl.Model.Format

/-!
JSON form of directions and formulas.

Both are variants with the tag `op`. Written values have all their fields; a reader supplies what is
missing where there is a default: time runs forward, an until is strong, and a move has either
orientation. Readers take fuel, one unit for each level of nesting.
-/

namespace ColoredCtl

open Json

namespace PathQuantifier

def name : PathQuantifier → String
  | .some => "exists"
  | .all => "all"

def ofName? : String → Option PathQuantifier
  | "exists" => Option.some .some
  | "all" => Option.some .all
  | _ => none

def toJson (q : PathQuantifier) : Json := .string q.name

def ofJson? (nested : Bool) (j : Json) : Option PathQuantifier := do
  ofName? (← j.choice? nested ["exists", "all"])

end PathQuantifier

/-- A variant with the tag `op`. -/
def operation (op : String) (fields : List (String × Json)) : Json :=
  .object (("op", .string op) :: fields)

namespace Direction

def toJson : Direction → Json
  | .top => operation "true" []
  | .bottom => operation "false" []
  | .loop => operation "loop" []
  | .along name facet =>
    operation "atom" [("name", .string name), ("facet", (facet.map Facet.toJson).getD .null)]
  | .not inner => operation "not" [("inner", inner.toJson)]
  | .and left right => operation "and" [("left", left.toJson), ("right", right.toJson)]
  | .or left right => operation "or" [("left", left.toJson), ("right", right.toJson)]

def ops : List String := ["true", "false", "loop", "atom", "not", "and", "or"]

/-- The names of the fields of each operation. -/
def fieldNames : String → List String
  | "atom" => ["name", "facet"]
  | "not" => ["inner"]
  | "and" | "or" => ["left", "right"]
  | _ => []

def read : (fuel : Nat) → (nested : Bool) → Json → Option Direction
  | 0, _, _ => none
  | fuel + 1, nested, j => do
    let (op, body) ← j.variant? nested "op" ops
    let names := fieldNames op
    guard (body.isRecord names)
    let part name := body.fieldOf names name (read fuel true)
    match op with
    | "true" => return .top
    | "false" => return .bottom
    | "loop" => return .loop
    | "atom" =>
      return .along (← body.fieldOf names "name" string?)
        (← body.fieldOr names "facet" none (Facet.optionalOfJson? true))
    | "not" => return .not (← part "inner")
    | "and" => return .and (← part "left") (← part "right")
    | "or" => return .or (← part "left") (← part "right")
    | _ => none

def ofJson? (nested : Bool) (j : Json) : Option Direction := read j.depth nested j

end Direction

namespace Course

/-- The fields of a course, as they stand among those of an operator. -/
def fields (c : Course) : List (String × Json) :=
  [("direction", c.direction.toJson), ("time_flow", .bool c.forward)]

def ofFields? (names : List String) (j : Json) : Option Course := do
  return { direction := ← j.fieldOf names "direction" (Direction.ofJson? true)
           forward := ← j.fieldOr names "time_flow" true bool? }

end Course

namespace Formula

def toJson : Formula → Json
  | .top => operation "true" []
  | .bottom => operation "false" []
  | .atom a => operation "atom" [("atom", a.toJson)]
  | .reference name => operation "reference" [("name", .string name)]
  | .not inner => operation "not" [("inner", inner.toJson)]
  | .and left right => operation "and" [("left", left.toJson), ("right", right.toJson)]
  | .or left right => operation "or" [("left", left.toJson), ("right", right.toJson)]
  | .implies left right => operation "implies" [("left", left.toJson), ("right", right.toJson)]
  | .equal left right => operation "equal" [("left", left.toJson), ("right", right.toJson)]
  | .next quantifier course inner =>
    operation "next" (("quantifier", quantifier.toJson) :: course.fields ++
      [("inner", inner.toJson)])
  | .hold quantifier weak course path reach =>
    operation "until" (("quantifier", quantifier.toJson) :: ("weak", .bool weak) ::
      course.fields ++ [("path", path.toJson), ("reach", reach.toJson)])
  | .bind name inner => operation "bind" [("name", .string name), ("inner", inner.toJson)]
  | .jump name inner => operation "at" [("name", .string name), ("inner", inner.toJson)]
  | .forAll name bound inner =>
    operation "for_all" [("name", .string name), ("bound", bound.toJson), ("inner", inner.toJson)]
  | .forSome name bound inner =>
    operation "exists" [("name", .string name), ("bound", bound.toJson), ("inner", inner.toJson)]

def ops : List String :=
  ["true", "false", "atom", "reference", "not", "and", "or", "implies", "equal", "next", "until",
    "bind", "at", "for_all", "exists"]

/-- The names of the fields of each operation. -/
def fieldNames : String → List String
  | "atom" => ["atom"]
  | "reference" => ["name"]
  | "not" => ["inner"]
  | "and" | "or" | "implies" | "equal" => ["left", "right"]
  | "next" => ["quantifier", "direction", "time_flow", "inner"]
  | "until" => ["quantifier", "weak", "direction", "time_flow", "path", "reach"]
  | "bind" | "at" => ["name", "inner"]
  | "for_all" | "exists" => ["name", "bound", "inner"]
  | _ => []

def read : (fuel : Nat) → (nested : Bool) → Json → Option Formula
  | 0, _, _ => none
  | fuel + 1, nested, j => do
    let (op, body) ← j.variant? nested "op" ops
    let names := fieldNames op
    guard (body.isRecord names)
    let part name := body.fieldOf names name (read fuel true)
    let name := body.fieldOf names "name" string?
    let quantifier := body.fieldOf names "quantifier" (PathQuantifier.ofJson? true)
    match op with
    | "true" => return .top
    | "false" => return .bottom
    | "atom" => return .atom (← body.fieldOf names "atom" (Atom.ofJson? true))
    | "reference" => return .reference (← name)
    | "not" => return .not (← part "inner")
    | "and" => return .and (← part "left") (← part "right")
    | "or" => return .or (← part "left") (← part "right")
    | "implies" => return .implies (← part "left") (← part "right")
    | "equal" => return .equal (← part "left") (← part "right")
    | "next" => return .next (← quantifier) (← Course.ofFields? names body) (← part "inner")
    | "until" =>
      return .hold (← quantifier) (← body.fieldOr names "weak" false bool?)
        (← Course.ofFields? names body) (← part "path") (← part "reach")
    | "bind" => return .bind (← name) (← part "inner")
    | "at" => return .jump (← name) (← part "inner")
    | "for_all" => return .forAll (← name) (← part "bound") (← part "inner")
    | "exists" => return .forSome (← name) (← part "bound") (← part "inner")
    | _ => none

def ofJson? (j : Json) : Option Formula := read j.depth false j

end Formula

end ColoredCtl

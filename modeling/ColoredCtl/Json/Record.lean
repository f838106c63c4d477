import ColoredCtl.Json.Basic

/-!
Records, variants and choices as JSON values.

A record is an object with its fields, or the list of their values in order. A variant is a record
with a tag that names its kind, in a field of its own or at the front of the list. A choice is the
name of one of several constants. Unknown fields of objects are ignored.

Inside of a variant (`nested`) a tag may also be given by its position among the names, and the
payload of a constant may be an empty object.
-/

namespace ColoredCtl.Json

/-- Whether a value can be a record with the given fields. -/
def isRecord (names : List String) : Json → Bool
  | .object _ => true
  | .array items => decide (items.length ≤ names.length)
  | _ => false

/-- The value of a field of a record. -/
def recordField? (names : List String) (name : String) : Json → Option Json
  | .object fields => fields.lookup name
  | .array items => items[names.idxOf name]?
  | _ => none

/-- The named kind that a tag stands for. -/
def tag? (nested : Bool) (names : List String) : Json → Option String
  | .string name => if names.contains name then some name else none
  | .natural position => if nested then names[position]? else none
  | _ => none

/-- The kind of a variant and the record with its fields. -/
def variant? (nested : Bool) (tag : String) (names : List String) : Json → Option (String × Json)
  | .object fields => do
    let name ← tag? nested names (← fields.lookup tag)
    return (name, .object fields)
  | .array (head :: rest) => do
    let name ← tag? nested names head
    return (name, .array rest)
  | _ => none

/-- Whether the value stands for "no payload". -/
def isUnit (nested : Bool) : Json → Bool
  | .null => true
  | .object [] => nested
  | _ => false

/-- One of several names. -/
def choice? (nested : Bool) (names : List String) : Json → Option String
  | .string name => if names.contains name then some name else none
  | .object [(name, payload)] =>
    if names.contains name && isUnit nested payload then some name else none
  | _ => none

/-- The value of a field, or a default when the field is missing. -/
def fieldOr {α : Type} (names : List String) (name : String) (default : α)
    (read : Json → Option α) (j : Json) : Option α :=
  match j.recordField? names name with
  | none => some default
  | some value => read value

/-- The value of a field that must be there. -/
def fieldOf {α : Type} (names : List String) (name : String) (read : Json → Option α) (j : Json) :
    Option α := do
  read (← j.recordField? names name)

end ColoredCtl.Json

import ColoredCtl.Number.Binary64

/-!
JSON values.

Numbers keep the distinction between integers and other numbers that the record formats rely on:
`natural` is an integer from 0 on, `negative n` is the integer `-n`, and everything written with a
fraction or an exponent, or too large for a machine word, is a `real`.
-/

namespace ColoredCtl

inductive Json where
  | null
  | bool (b : Bool)
  | natural (n : Nat)
  | negative (n : Nat)
  | real (x : Binary64)
  | string (s : String)
  | array (items : List Json)
  | object (fields : List (String × Json))
deriving Inhabited

namespace Json

/-- The value of a field of an object. -/
def field? (j : Json) (name : String) : Option Json :=
  match j with
  | .object fields => fields.lookup name
  | _ => none

def nat? : Json → Option Nat
  | .natural n => some n
  | _ => none

def bool? : Json → Option Bool
  | .bool b => some b
  | _ => none

def string? : Json → Option String
  | .string s => some s
  | _ => none

def items? : Json → Option (List Json)
  | .array items => some items
  | _ => none

/-- Any number, as the nearest binary64 value. -/
def real? : Json → Option Binary64
  | .natural n => some (.ofInt n)
  | .negative n => some (.ofInt (-n))
  | .real x => some x
  | _ => none

/-- A number for a finite value; there is none for the others, which become `null`. -/
def ofReal (x : Binary64) : Json := if x.isFinite then .real x else .null

mutual

/-- Nesting depth: one for a value without parts. -/
def depth : Json → Nat
  | .array items => depthItems items + 1
  | .object fields => depthFields fields + 1
  | _ => 1

def depthItems : List Json → Nat
  | [] => 0
  | j :: rest => max (depth j) (depthItems rest)

def depthFields : List (String × Json) → Nat
  | [] => 0
  | (_, j) :: rest => max (depth j) (depthFields rest)

end

end Json

end ColoredCtl

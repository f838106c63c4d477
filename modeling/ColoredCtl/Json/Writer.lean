import ColoredCtl.Json.Basic
import ColoredCtl.Number.Decimal

/-!
Compact JSON text: no blanks, fields in the order of the value, and only the characters escaped
that cannot stand in a string.
-/

namespace ColoredCtl.Json

/-- The last hexadecimal digit of a number. -/
def hexDigit (n : Nat) : Char := (Nat.digitChar (n % 16))

/-- The escaped form of one character. -/
def escape (c : Char) : String :=
  if c = '"' then "\\\""
  else if c = '\\' then "\\\\"
  else if c = '\n' then "\\n"
  else if c = '\r' then "\\r"
  else if c = '\t' then "\\t"
  else if c.toNat = 8 then "\\b"
  else if c.toNat = 12 then "\\f"
  else if c.toNat < 32 then
    "\\u00" ++ String.singleton (hexDigit (c.toNat / 16)) ++ String.singleton (hexDigit c.toNat)
  else String.singleton c

def quote (s : String) : String :=
  "\"" ++ String.join (s.toList.map escape) ++ "\""

mutual

/-- The text of a value. -/
def render : Json → String
  | .null => "null"
  | .bool b => if b then "true" else "false"
  | .natural n => toString n
  | .negative n => "-" ++ toString n
  | .real x => if x.isFinite then Layout.document.write x else "null"
  | .string s => quote s
  | .array items => "[" ++ ",".intercalate (renderItems [] items) ++ "]"
  | .object fields => "\x7b" ++ ",".intercalate (renderFields [] fields) ++ "\x7d"

/-- The texts of values, behind the texts before them, the last of which comes first. -/
def renderItems (before : List String) : List Json → List String
  | [] => before.reverse
  | j :: rest => renderItems (render j :: before) rest

/-- The texts of fields, behind the texts before them, the last of which comes first. -/
def renderFields (before : List String) : List (String × Json) → List String
  | [] => before.reverse
  | (name, j) :: rest => renderFields ((quote name ++ ":" ++ render j) :: before) rest

end

end ColoredCtl.Json

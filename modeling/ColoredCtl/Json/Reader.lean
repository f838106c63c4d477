import ColoredCtl.Json.Basic

/-!
Reading JSON text.

The reader works on a list of characters and returns what is left. Each call is given fuel. The calls
that stand inside one another, together with the items and fields before them, are not more than the
characters read, so the length of the text is enough.
-/

namespace ColoredCtl.Json

def isBlank (c : Char) : Bool := c = ' ' || c = '\t' || c = '\n' || c = '\r'

def skipBlanks (cs : List Char) : List Char := cs.dropWhile isBlank

/-- The value of a hexadecimal digit. -/
def hexValue? (c : Char) : Option Nat :=
  if '0' ≤ c && c ≤ '9' then some (c.toNat - '0'.toNat)
  else if 'a' ≤ c && c ≤ 'f' then some (c.toNat - 'a'.toNat + 10)
  else if 'A' ≤ c && c ≤ 'F' then some (c.toNat - 'A'.toNat + 10)
  else none

/-- The number written by four hexadecimal digits. -/
def unit? (a b c d : Char) : Option Nat := do
  return 4096 * (← hexValue? a) + 256 * (← hexValue? b) + 16 * (← hexValue? c) + (← hexValue? d)

/-- The character of a short escape. -/
def shortEscape? (c : Char) : Option Char :=
  if c = 'n' then some '\n'
  else if c = 't' then some '\t'
  else if c = 'r' then some '\r'
  else if c = 'b' then some (Char.ofNat 8)
  else if c = 'f' then some (Char.ofNat 12)
  else if c = '"' || c = '\\' || c = '/' then some c
  else none

/-- A scalar value; the two halves of a pair are none on their own. -/
def scalar? (n : Nat) : Option Char :=
  if h : n.isValidChar then some (Char.ofNatAux n h) else none

/-- The rest of a string behind its opening quote. Characters beyond the first plane may be
written as a pair of units. -/
def stringRest (acc : List Char) : List Char → Option (String × List Char)
  | [] => none
  | '"' :: rest => some (String.ofList acc.reverse, rest)
  | '\\' :: 'u' :: a :: b :: c :: d :: '\\' :: 'u' :: e :: f :: g :: h :: rest => do
    let high ← unit? a b c d
    let low ← unit? e f g h
    if 0xd800 ≤ high && high < 0xdc00 then
      if 0xdc00 ≤ low && low < 0xe000 then
        stringRest ((← scalar? (0x10000 + (high - 0xd800) * 1024 + (low - 0xdc00))) :: acc) rest
      else none
    else stringRest ((← scalar? high) :: acc) ('\\' :: 'u' :: e :: f :: g :: h :: rest)
  | '\\' :: 'u' :: a :: b :: c :: d :: rest => do
    stringRest ((← scalar? (← unit? a b c d)) :: acc) rest
  | '\\' :: c :: rest => do stringRest ((← shortEscape? c) :: acc) rest
  | c :: rest => if c.toNat < 32 then none else stringRest (c :: acc) rest

/-- The digits at the front. -/
def digits (cs : List Char) : List Char × List Char :=
  (cs.takeWhile Char.isDigit, cs.dropWhile Char.isDigit)

/-- The number that decimal digits write. -/
def digitsValue (cs : List Char) : Nat :=
  cs.foldl (fun n c => 10 * n + (c.toNat - '0'.toNat)) 0

/-- The digits behind a point, if there is one; at least one must follow it. -/
def fraction? : List Char → Option (Option (List Char) × List Char)
  | '.' :: rest =>
    let (ds, rest) := digits rest
    if ds.isEmpty then none else some (some ds, rest)
  | cs => some (none, cs)

/-- The power of ten, if there is one. -/
def power? : List Char → Option (Option Int × List Char)
  | c :: rest =>
    if c = 'e' || c = 'E' then
      let (minus, rest) := match rest with
        | '-' :: rest => (true, rest)
        | '+' :: rest => (false, rest)
        | rest => (false, rest)
      let (ds, rest) := digits rest
      if ds.isEmpty then none
      else
        let n : Int := digitsValue ds
        some (some (if minus then -n else n), rest)
    else some (none, c :: rest)
  | [] => some (none, [])

/-- The number with the given sign and parts. Without fraction and power it is an integer, as far as
machine words reach; a negative zero is not one. -/
def numberOf (minus : Bool) (whole : List Char) (fraction : Option (List Char))
    (power : Option Int) : Json :=
  let n := digitsValue whole
  match fraction, power with
  | none, none =>
    if !minus && n < 0x10000000000000000 then .natural n
    else if minus && 0 < n && n ≤ 0x8000000000000000 then .negative n
    else .real (.ofDecimal minus n 0)
  | _, _ =>
    let ds := fraction.getD []
    .real (.ofDecimal minus (digitsValue (whole ++ ds)) (power.getD 0 - ds.length))

/-- A number. A leading zero stands alone. -/
def number (cs : List Char) : Option (Json × List Char) := do
  let (minus, cs) := match cs with
    | '-' :: rest => (true, rest)
    | cs => (false, cs)
  let (whole, rest) := digits cs
  if whole.isEmpty || (whole.length ≠ 1 && whole.head? = some '0') then none
  else
    let (fraction, rest) ← fraction? rest
    let (power, rest) ← power? rest
    return (numberOf minus whole fraction power, rest)

mutual

/-- One value and what follows it. -/
def value : (fuel : Nat) → List Char → Option (Json × List Char)
  | 0, _ => none
  | fuel + 1, cs =>
    match skipBlanks cs with
    | 'n' :: 'u' :: 'l' :: 'l' :: rest => some (.null, rest)
    | 't' :: 'r' :: 'u' :: 'e' :: rest => some (.bool true, rest)
    | 'f' :: 'a' :: 'l' :: 's' :: 'e' :: rest => some (.bool false, rest)
    | '"' :: rest => (stringRest [] rest).map fun (s, rest) => (.string s, rest)
    | '[' :: rest =>
      match skipBlanks rest with
      | ']' :: rest => some (.array [], rest)
      | rest => (items fuel [] rest).map fun (js, rest) => (.array js, rest)
    | '\x7b' :: rest =>
      match skipBlanks rest with
      | '\x7d' :: rest => some (.object [], rest)
      | rest => (fields fuel [] rest).map fun (fs, rest) => (.object fs, rest)
    | rest => number rest

/-- The values up to the closing bracket, behind the values read before, the last of which comes
first. -/
def items : (fuel : Nat) → (before : List Json) → List Char → Option (List Json × List Char)
  | 0, _, _ => none
  | fuel + 1, before, cs =>
    match value fuel cs with
    | none => none
    | some (j, rest) =>
      match skipBlanks rest with
      | ',' :: rest => items fuel (j :: before) rest
      | ']' :: rest => some ((j :: before).reverse, rest)
      | _ => none

/-- One field: its name, a colon and its value. -/
def field : (fuel : Nat) → List Char → Option ((String × Json) × List Char)
  | 0, _ => none
  | fuel + 1, cs =>
    match skipBlanks cs with
    | '"' :: rest => do
      let (name, rest) ← stringRest [] rest
      match skipBlanks rest with
      | ':' :: rest =>
        let (j, rest) ← value fuel rest
        return ((name, j), rest)
      | _ => none
    | _ => none

/-- The fields up to the closing brace, behind the fields read before, the last of which comes
first. -/
def fields : (fuel : Nat) → (before : List (String × Json)) → List Char →
    Option (List (String × Json) × List Char)
  | 0, _, _ => none
  | fuel + 1, before, cs =>
    match field fuel cs with
    | none => none
    | some (entry, rest) =>
      match skipBlanks rest with
      | ',' :: rest => fields fuel (entry :: before) rest
      | '\x7d' :: rest => some ((entry :: before).reverse, rest)
      | _ => none

end

/-- The value that a text writes, with nothing but blanks around it. -/
def parse? (text : String) : Option Json :=
  let cs := text.toList
  match value (cs.length + 1) cs with
  | some (j, rest) => if (skipBlanks rest).isEmpty then some j else none
  | none => none

end ColoredCtl.Json

import ColoredCtl.Capacity

/-!
Rounds of an exchange between several partners.

In a round each partner brings a row: for each partner, a payload or nothing. If nobody brought any
payload the round ends the exchange for all of them; otherwise each gets the payloads addressed to
it, in the order of the senders. A partner may abort instead. Then nobody gets anything, in this
round and in all later ones.
-/

namespace ColoredCtl.Exchange

variable {T : Type}

/-- What a partner brings to a round, by destination. -/
abbrev Row (T : Type) := List (Option T)

/-- The number of bytes of the place of a payload. -/
def placeBytes : Nat := 32

/-- Accepts a number of partners for which there can be a place for each pair of them. -/
def reserve (count : Nat) : Except Misuse Unit := do
  Capacity.reserve placeBytes (← Word.mul count count)

/-- The payloads addressed to one partner, in the order of the senders. -/
def column (rows : List (Row T)) (destination : Nat) : List T :=
  rows.filterMap fun row => row[destination]?.join

/-- Puts the payloads of a row in front of those that are addressed to the same partners already. -/
def addRow : Row T → List (List T) → List (List T)
  | _, [] => []
  | [], columns => columns
  | payload :: row, payloads :: columns => (payload.toList ++ payloads) :: addRow row columns

/-- The payloads addressed to each of a number of partners. -/
def columns (count : Nat) (rows : List (Row T)) : List (List T) :=
  rows.foldr addRow (List.replicate count [])

/-- Whether any payload was brought. -/
def anySent (rows : List (Row T)) : Bool := rows.any (·.any Option.isSome)

/-- What each partner gets when all have brought their rows. -/
def deliver (rows : List (Row T)) : List (Option (List T)) :=
  if anySent rows then (columns rows.length rows).map some else rows.map fun _ => none

theorem getElem?_addRow (row : Row T) (columns : List (List T)) (destination : Nat) :
    (addRow row columns)[destination]? =
      columns[destination]?.map ((row[destination]?.join).toList ++ ·) := by
  induction columns generalizing row destination with
  | nil => cases row <;> rfl
  | cons payloads columns ih =>
    cases row with
    | nil => simp [addRow]
    | cons payload row =>
      cases destination with
      | zero => simp [addRow]
      | succ destination => simpa [addRow] using ih row destination

/-- Each partner gets the payloads addressed to it, in the order of the senders. -/
theorem columns_eq (count : Nat) (rows : List (Row T)) :
    columns count rows = (List.range count).map (column rows) := by
  apply List.ext_getElem?
  intro destination
  induction rows with
  | nil =>
    by_cases h : destination < count <;> simp [columns, column, h]
  | cons row rows ih =>
    simp only [columns, List.foldr_cons, getElem?_addRow] at ih ⊢
    rw [ih]
    by_cases h : destination < count
    · simp only [List.getElem?_map, List.getElem?_range h, Option.map_some, column,
        List.filterMap_cons]
      cases row[destination]?.join <;> simp
    · simp [h]

/-- One round of partners that bring a row or, when there is none, abort. Nothing is delivered when
somebody aborts, or has aborted before. -/
def round (aborted : Bool) (calls : List (Option (Row T))) : Option (List (Option (List T))) :=
  if aborted then none else (calls.mapM id).map deliver

/-- The rounds of an exchange one after the other; an aborted exchange stays aborted. -/
def rounds (aborted : Bool) :
    List (List (Option (Row T))) → List (Option (List (Option (List T)))) × Bool
  | [] => ([], aborted)
  | calls :: rest =>
    let result := round aborted calls
    let (results, last) := rounds result.isNone rest
    (result :: results, last)

end ColoredCtl.Exchange

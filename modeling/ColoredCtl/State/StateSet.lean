import ColoredCtl.Failure
import ColoredCtl.State.Bitmap
import ColoredCtl.State.Span

/-!
Sets of states of a fixed state space, as bitmaps.

The state space is part of the set: inserting a state that it does not have, and combining sets over
different spaces, are misuses. Removing or looking up such a state is not: it is never there.
-/

namespace ColoredCtl

/-- A set of states below `stateCount`. -/
structure StateSet where
  stateCount : Nat
  bits : Bitmap
  room : bits.words.size = (stateCount + 63) / 64
  inside : ∀ state, bits.get state = true → state < stateCount
deriving DecidableEq

namespace StateSet

def contains (s : StateSet) (state : Nat) : Bool := s.bits.get state

/-- The members, in increasing order. -/
def toList (s : StateSet) : List Nat := s.bits.toList

def size (s : StateSet) : Nat := s.toList.length

def isEmpty (s : StateSet) : Bool := s.bits.isEmpty

theorem fits (s : StateSet) {state : Nat} (h : state < s.stateCount) :
    state < 64 * s.bits.words.size := by
  rw [s.room]
  omega

def empty (stateCount : Nat) : StateSet where
  stateCount
  bits := .empty stateCount
  room := Bitmap.size_empty stateCount
  inside state h := by simp at h

/-- Adds the states of a span that the space has. -/
def addSpan (s : StateSet) (r : Span) : StateSet where
  stateCount := s.stateCount
  bits := s.bits.insertRange r.start (min r.stop s.stateCount)
  room := by rw [Bitmap.size_insertRange, s.room]
  inside state h := by
    have hlt := Bitmap.lt_of_get h
    rw [Bitmap.size_insertRange] at hlt
    rw [Bitmap.get_insertRange _ _ _ hlt] at h
    simp only [Bool.or_eq_true, Bool.and_eq_true, decide_eq_true_eq] at h
    rcases h with h | h
    · exact s.inside state h
    · omega

/-- All states of the space. -/
def full (stateCount : Nat) : StateSet := (empty stateCount).addSpan ⟨0, stateCount⟩

/-- The set with a state of the space added. -/
def add (s : StateSet) (state : Nat) (h : state < s.stateCount) : StateSet where
  stateCount := s.stateCount
  bits := s.bits.insert state
  room := by rw [Bitmap.size_insert, s.room]
  inside other hother := by
    rw [Bitmap.get_insert _ (s.fits h)] at hother
    simp only [Bool.or_eq_true, decide_eq_true_eq] at hother
    rcases hother with hother | rfl
    · exact s.inside other hother
    · exact h

/-- Adds a state, and tells whether it was new. -/
def insert (s : StateSet) (state : Nat) : Except Misuse (Bool × StateSet) :=
  if h : state < s.stateCount then .ok (!s.contains state, s.add state h)
  else .error (.stateOutside state s.stateCount)

/-- The set without a state. -/
def without (s : StateSet) (state : Nat) : StateSet where
  stateCount := s.stateCount
  bits := s.bits.erase state
  room := by rw [Bitmap.size_erase, s.room]
  inside other hother := by
    rw [Bitmap.get_erase, Bool.and_eq_true] at hother
    exact s.inside other hother.1

/-- Removes a state, and tells whether it was there. -/
def erase (s : StateSet) (state : Nat) : Bool × StateSet := (s.contains state, s.without state)

/-- The set of the listed states, which must all be in the space. -/
def ofList (stateCount : Nat) (states : List Nat) : Except Misuse StateSet :=
  states.foldlM (fun s state => do return (← s.insert state).2) (empty stateCount)

/-- Adds the states of a span one by one. At the first state outside of the space it stops; the
states before it stay added. -/
def insertSpan (s : StateSet) (r : Span) : Option Misuse × StateSet :=
  let outside := !r.isEmpty && decide (s.stateCount < r.stop)
  (if outside then some (.stateOutside (max r.start s.stateCount) s.stateCount) else none,
    s.addSpan r)

/-- The set of the states of a span, which must all be in the space. -/
def ofSpan (stateCount : Nat) (r : Span) : Except Misuse StateSet :=
  match (empty stateCount).insertSpan r with
  | (none, s) => .ok s
  | (some cause, _) => .error cause

/-- The states of either of two sets over the same space. -/
def union (s t : StateSet) : Except Misuse StateSet :=
  if h : s.stateCount = t.stateCount then
    have hsize : s.bits.words.size = t.bits.words.size := by rw [s.room, t.room, h]
    .ok { stateCount := s.stateCount
          bits := s.bits.union t.bits
          room := by rw [Bitmap.size_union hsize, s.room]
          inside := fun state hstate => by
            rw [Bitmap.get_union hsize, Bool.or_eq_true] at hstate
            exact hstate.elim (s.inside state) fun hstate => h ▸ t.inside state hstate }
  else .error (.stateSpaces s.stateCount t.stateCount)

/-- The states of both of two sets over the same space. -/
def inter (s t : StateSet) : Except Misuse StateSet :=
  if h : s.stateCount = t.stateCount then
    have hsize : s.bits.words.size = t.bits.words.size := by rw [s.room, t.room, h]
    .ok { stateCount := s.stateCount
          bits := s.bits.inter t.bits
          room := by rw [Bitmap.size_inter hsize, s.room]
          inside := fun state hstate => by
            rw [Bitmap.get_inter hsize, Bool.and_eq_true] at hstate
            exact s.inside state hstate.1 }
  else .error (.stateSpaces s.stateCount t.stateCount)

def text (s : StateSet) : String :=
  "\x7b" ++ ", ".intercalate (s.toList.map toString) ++ "\x7d"

/-- A set has no member outside of its space. -/
theorem lt_of_contains {s : StateSet} {state : Nat} (h : s.contains state = true) :
    state < s.stateCount :=
  s.inside state h

@[simp] theorem contains_empty (n state : Nat) : (empty n).contains state = false :=
  Bitmap.get_empty n state

@[simp] theorem contains_addSpan (s : StateSet) (r : Span) (state : Nat) :
    (s.addSpan r).contains state =
      (s.contains state || (r.contains state && decide (state < s.stateCount))) := by
  by_cases h : state < s.stateCount
  · have hget := Bitmap.get_insertRange s.bits r.start (min r.stop s.stateCount) (s.fits h)
    have hmin : decide (state < min r.stop s.stateCount) = decide (state < r.stop) :=
      decide_eq_decide.2 (by omega)
    simpa [contains, addSpan, Span.contains, h, hmin] using hget
  · have hnot (t : StateSet) (ht : t.stateCount = s.stateCount) : t.contains state = false := by
      cases hcontains : t.contains state with
      | false => rfl
      | true => exact absurd (ht ▸ lt_of_contains hcontains) h
    simp [hnot s rfl, hnot (s.addSpan r) rfl, h]

@[simp] theorem contains_full (n state : Nat) :
    (full n).contains state = decide (state < n) := by
  have hcount : (empty n).stateCount = n := rfl
  simp [full, Span.contains, hcount]

@[simp] theorem contains_add (s : StateSet) (state other : Nat) (h : state < s.stateCount) :
    (s.add state h).contains other = (s.contains other || decide (state = other)) :=
  Bitmap.get_insert s.bits (s.fits h) other

@[simp] theorem contains_without (s : StateSet) (state other : Nat) :
    (s.without state).contains other = (s.contains other && !decide (state = other)) :=
  Bitmap.get_erase s.bits state other

@[simp] theorem mem_toList (s : StateSet) (state : Nat) :
    state ∈ s.toList ↔ s.contains state = true :=
  Bitmap.mem_toList s.bits state

/-- Listing the members filters the states of the space. -/
theorem toList_eq (s : StateSet) : s.toList = (List.range s.stateCount).filter s.contains :=
  (Bitmap.toList_eq s.bits).trans
    (Mask.filter_range_eq (fun _ => Bitmap.lt_of_get) (fun _ => lt_of_contains))

/-- Sets over the same space with the same members are equal. -/
theorem ext {s t : StateSet} (hcount : s.stateCount = t.stateCount)
    (h : ∀ state, s.contains state = t.contains state) : s = t := by
  have hbits : s.bits = t.bits := Bitmap.ext (by rw [s.room, t.room, hcount]) h
  cases s
  cases t
  cases hcount
  cases hbits
  rfl

theorem isEmpty_iff (s : StateSet) : s.isEmpty = true ↔ ∀ state, s.contains state = false :=
  Bitmap.isEmpty_iff s.bits

end StateSet

end ColoredCtl

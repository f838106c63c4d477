import ColoredCtl.Formula.Basic
import ColoredCtl.State.StateMap

/-!
Maps kept by the formulas that they belong to.

A formula is filed under its digest, a number computed from all of its parts; formulas with the same
digest stand in one list and are told apart by comparing them. `find?` is the view: keeping a map
changes what is found for its formula and for no other.
-/

namespace ColoredCtl

/-- Mixes a part into a digest. -/
def mixDigest (digest part : Nat) : Nat := (31 * digest + part) % 0x7fffffff

def textDigest (s : String) : Nat := s.toList.foldl (fun digest c => mixDigest digest c.toNat) 1

def Facet.digest : Facet → Nat
  | .up => 1
  | .down => 2

def Comparison.digest : Comparison → Nat
  | .lt => 1
  | .le => 2
  | .gt => 3
  | .ge => 4
  | .eq => 5
  | .ne => 6

def Atom.digest : Atom → Nat
  | .float name comparison threshold =>
    mixDigest (mixDigest (textDigest name) comparison.digest) threshold.bits.toNat
  | .transition name flow facet =>
    mixDigest (mixDigest (textDigest name) (if flow = .into then 7 else 8)) facet.digest

def Direction.digest : Direction → Nat
  | .top => 1
  | .bottom => 2
  | .loop => 3
  | .along name facet => mixDigest (textDigest name) ((facet.map Facet.digest).getD 0)
  | .not inner => mixDigest 4 inner.digest
  | .and left right => mixDigest (mixDigest 5 left.digest) right.digest
  | .or left right => mixDigest (mixDigest 6 left.digest) right.digest

def Course.digest (c : Course) : Nat := mixDigest c.direction.digest (if c.forward then 1 else 0)

def PathQuantifier.digest : PathQuantifier → Nat
  | .some => 1
  | .all => 2

/-- A number that mostly differs for different formulas. -/
def Formula.digest : Formula → Nat
  | .top => 1
  | .bottom => 2
  | .atom a => mixDigest 3 a.digest
  | .reference name => mixDigest 4 (textDigest name)
  | .not inner => mixDigest 5 inner.digest
  | .and left right => mixDigest (mixDigest 6 left.digest) right.digest
  | .or left right => mixDigest (mixDigest 7 left.digest) right.digest
  | .implies left right => mixDigest (mixDigest 8 left.digest) right.digest
  | .equal left right => mixDigest (mixDigest 9 left.digest) right.digest
  | .next quantifier course inner =>
    mixDigest (mixDigest (mixDigest 10 quantifier.digest) course.digest) inner.digest
  | .hold quantifier weak course path reach =>
    mixDigest (mixDigest (mixDigest (mixDigest (if weak then 11 else 12) quantifier.digest)
      course.digest) path.digest) reach.digest
  | .bind name inner => mixDigest (mixDigest 13 (textDigest name)) inner.digest
  | .jump name inner => mixDigest (mixDigest 14 (textDigest name)) inner.digest
  | .forAll name bound inner =>
    mixDigest (mixDigest (mixDigest 15 (textDigest name)) bound.digest) inner.digest
  | .forSome name bound inner =>
    mixDigest (mixDigest (mixDigest 16 (textDigest name)) bound.digest) inner.digest

/-- The maps of formulas, by digest. -/
structure Memo (C : Type) where
  files : Std.TreeMap Nat (List (Formula × StateMap C)) := ∅

namespace Memo

variable {C : Type}

/-- The formulas with a digest, the last one kept first. -/
def file (memo : Memo C) (digest : Nat) : List (Formula × StateMap C) :=
  memo.files[digest]?.getD []

/-- The map that is kept for a formula. -/
def find? (memo : Memo C) (f : Formula) : Option (StateMap C) := (memo.file f.digest).lookup f

/-- Keeps a map for a formula. -/
def insert (memo : Memo C) (f : Formula) (m : StateMap C) : Memo C :=
  ⟨memo.files.insert f.digest ((f, m) :: memo.file f.digest)⟩

@[simp] theorem find?_empty (f : Formula) : ({} : Memo C).find? f = none := by
  simp [find?, file]

/-- A kept map is found for its formula, and all others are found as before. -/
theorem find?_insert (memo : Memo C) (f g : Formula) (m : StateMap C) :
    (memo.insert f m).find? g = if g = f then some m else memo.find? g := by
  by_cases heq : g = f
  · subst heq
    simp [find?, insert, file]
  · have hbeq : (g == f) = false := by simpa using heq
    simp only [if_neg heq, find?, insert, file, Std.TreeMap.getElem?_insert]
    by_cases hdigest : f.digest = g.digest
    · simp [hdigest, List.lookup_cons, hbeq]
    · simp [hdigest]

end Memo

end ColoredCtl

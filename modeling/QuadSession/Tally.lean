import QuadSession.Quad
import Std.Data.TreeMap

/-!
# Reference counts of blank nodes

A tally says for every blank node how many quads have it as their object.  Only
positive counts are stored, so a blank node that was never counted and one
whose count fell back to zero look the same.  Counts do not go below zero.

## Main statements

* `count_increment`, `count_decrement` and `count_forget` give the count of
  every blank node after one step.
-/

namespace QuadSession

/-- For each blank node the number of references to it, if there are any. -/
structure Tally where
  counts : Std.TreeMap Blank Nat

namespace Tally

def empty : Tally :=
  ⟨∅⟩

/-- The number of references to the blank node. -/
def count (t : Tally) (b : Blank) : Nat :=
  t.counts.getD b 0

/-- The number of blank nodes that are counted. -/
def size (t : Tally) : Nat :=
  t.counts.size

def isEmpty (t : Tally) : Bool :=
  t.counts.isEmpty

/-- One more reference. -/
def increment (t : Tally) (b : Blank) : Tally :=
  ⟨t.counts.insert b (t.count b + 1)⟩

/-- One reference less, if there was one. -/
def decrement (t : Tally) (b : Blank) : Tally :=
  if t.count b ≤ 1 then ⟨t.counts.erase b⟩ else ⟨t.counts.insert b (t.count b - 1)⟩

/-- Drops whatever was counted for the blank node. -/
def forget (t : Tally) (b : Blank) : Tally :=
  ⟨t.counts.erase b⟩

theorem count_increment (t : Tally) (b c : Blank) :
    (t.increment b).count c = if b = c then t.count b + 1 else t.count c := by
  simp only [count, increment, Std.TreeMap.getD_insert, Std.LawfulEqOrd.compare_eq_iff_eq]

theorem count_forget (t : Tally) (b c : Blank) :
    (t.forget b).count c = if b = c then 0 else t.count c := by
  simp only [count, forget, Std.TreeMap.getD_erase, Std.LawfulEqOrd.compare_eq_iff_eq]

theorem count_decrement (t : Tally) (b c : Blank) :
    (t.decrement b).count c = if b = c then t.count b - 1 else t.count c := by
  by_cases h : t.count b ≤ 1
  · rw [decrement, if_pos h]
    simp only [count, Std.TreeMap.getD_erase, Std.LawfulEqOrd.compare_eq_iff_eq]
    split
    · exact (Nat.sub_eq_zero_of_le h).symm
    · rfl
  · rw [decrement, if_neg h]
    simp only [count, Std.TreeMap.getD_insert, Std.LawfulEqOrd.compare_eq_iff_eq]

/-! ## Counting quads -/

/-- Counts the reference that a quad makes, if its object is blank. -/
def retain (t : Tally) (q : Quad) : Tally :=
  match q.object.term.blank? with
  | some b => t.increment b
  | none => t

/-- Takes back the reference that a quad makes, if its object is blank. -/
def release (t : Tally) (q : Quad) : Tally :=
  match q.object.term.blank? with
  | some b => t.decrement b
  | none => t

/-- Counts the references that all the quads make. -/
def retainAll (t : Tally) (quads : List Quad) : Tally :=
  quads.foldl retain t

/-- Takes back the references that all the quads make. -/
def releaseAll (t : Tally) (quads : List Quad) : Tally :=
  quads.foldl release t

/-- The tally of the quads. -/
def ofQuads (quads : List Quad) : Tally :=
  empty.retainAll quads

end Tally

end QuadSession

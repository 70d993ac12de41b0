import QuadSession.Term

/-!
# Nodes

A node is a term as it was read.  A blank node may remember the graph it was
read from; that graph travels with the node and is written out with it, but it
says nothing about which node it is.  So nodes are compared by their terms.
-/

namespace QuadSession

/-- A term, with the graph it was read from if it is a blank node and the graph
is known. -/
structure Node where
  term : Term
  origin : Option Iri := none
  origin_of_blank : origin.isSome = true → term.isBlank = true := by simp

namespace Node

/-- A term whose origin is not known. -/
def ofTerm (t : Term) : Node :=
  { term := t }

/-- A blank node that was read from the graph `origin`. -/
def blankFrom (id : Blank) (origin : Iri) : Node where
  term := .blank id
  origin := some origin
  origin_of_blank _ := rfl

/-- Nodes are equal when their terms are. -/
instance : BEq Node := ⟨fun a b => a.term == b.term⟩

theorem beq_iff {a b : Node} : (a == b) = true ↔ a.term = b.term :=
  beq_iff_eq (a := a.term) (b := b.term)

instance : EquivBEq Node where
  rfl := beq_iff.mpr rfl
  symm h := beq_iff.mpr (beq_iff.mp h).symm
  trans h k := beq_iff.mpr ((beq_iff.mp h).trans (beq_iff.mp k))

/-- Nodes are ordered as their terms are. -/
instance : Ord Node := ⟨compareOn term⟩

theorem compare_def (a b : Node) : compare a b = compare a.term b.term := rfl

instance : Std.TransOrd Node := inferInstanceAs (Std.TransCmp (compareOn term))

theorem compare_eq_iff {a b : Node} : compare a b = .eq ↔ a.term = b.term := by
  rw [compare_def]
  exact Std.LawfulEqOrd.compare_eq_iff_eq

instance : Std.LawfulBEqOrd Node where
  compare_eq_iff_beq := compare_eq_iff.trans beq_iff.symm

def isBlank (n : Node) : Bool :=
  n.term.isBlank

def isLiteral (n : Node) : Bool :=
  n.term.isLiteral

/-- The node as it is written in a line of quads.  Its origin is not
written. -/
def render (n : Node) : String :=
  n.term.render

end Node

end QuadSession

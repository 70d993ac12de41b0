import QuadSession.Iri

/-!
# Blank nodes and their scope

A blank node has no name of its own.  Its label means something only inside the
root entity it belongs to, so the pair of root and label is what identifies it.
The root is always given by an IRI.
-/

namespace QuadSession

/-- A blank node: a label in the scope of a root entity. -/
structure Blank where
  root : Iri
  label : String
deriving DecidableEq, Repr

namespace Blank

/-- Blank nodes are ordered by root, and by label within a root. -/
instance : Ord Blank := ⟨compareLex (compareOn root) (compareOn label)⟩

theorem compare_def (a b : Blank) :
    compare a b = (compare a.root b.root).then (compare a.label b.label) := rfl

instance : Std.TransOrd Blank :=
  inferInstanceAs (Std.TransCmp (compareLex (compareOn root) (compareOn label)))

instance : Std.LawfulEqOrd Blank where
  compare_self := Std.ReflCmp.compare_self
  eq_of_compare {a b} h := by
    rw [compare_def, Ordering.then_eq_eq] at h
    cases a
    cases b
    rw [mk.injEq]
    exact ⟨Std.LawfulEqOrd.eq_of_compare h.1, Std.LawfulEqOrd.eq_of_compare h.2⟩

/-- The label behind the mark for blank nodes.  The root is not written. -/
def render (blank : Blank) : String :=
  "_:" ++ blank.label

end Blank

end QuadSession

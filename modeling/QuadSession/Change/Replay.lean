import QuadSession.Change

/-!
# Carrying out changes

A change is meant to be carried out on the quads that a session was loaded from.
This module says what that means: an update takes its removed quads away before
it adds the others, an overwrite replaces what the graph holds and leaves every
other graph alone, and the two changes that reach into every graph drop quads by
owner or by object.

## Main definitions

* `Change.apply` carries out one change on a set of quads.
* `Change.replay` carries out changes in order.

## Main statements

* `contains_apply_update`, `contains_apply_overwrite`, `contains_apply_dropEntity`
  and `contains_apply_dropReferences` say which quads each change leaves.
-/

namespace QuadSession

namespace Edit

/-- Carries out an edit of a graph on a set of quads. -/
def apply (graph : Option Term) : Edit → Quads → Quads
  | update removed added, quads => Quads.union (Quads.diff quads removed) added
  | overwrite content, quads =>
    Quads.union (Quads.filter (fun q => q.graphTerm != graph) quads) content

variable {graph : Option Term} {removed added content quads : Quads} {q : Quad}

theorem contains_apply_update :
    ((update removed added).apply graph quads).contains q =
      (quads.contains q && !removed.contains q || added.contains q) := by
  simp only [apply, Quads.contains_union, Quads.contains_diff]

theorem contains_apply_overwrite :
    ((overwrite content).apply graph quads).contains q =
      (quads.contains q && q.graphTerm != graph || content.contains q) := by
  have hgraph : ∀ a b : Quad, (a == b) = true →
      (a.graphTerm != graph) = (b.graphTerm != graph) := by
    intro a b hab
    rw [Quad.graphTerm_eq_of_beq hab]
  simp only [apply, Quads.contains_union, Quads.contains_filter hgraph]

end Edit

namespace Change

/-- Carries out a change on a set of quads. -/
def apply : Change → Quads → Quads
  | inGraph change, quads => change.edit.apply change.graphTerm quads
  | dropEntity e, quads => Quads.filter (fun q => q.owner != e) quads
  | dropReferences e, quads => Quads.filter (fun q => q.object.term != e.toTerm) quads

/-- Carries out changes one after the other. -/
def replay (changes : List Change) (quads : Quads) : Quads :=
  changes.foldl (fun quads change => change.apply quads) quads

theorem replay_append (earlier later : List Change) (quads : Quads) :
    replay (earlier ++ later) quads = replay later (replay earlier quads) := by
  simp [replay, List.foldl_append]

theorem contains_apply_dropEntity {e : Entity} {quads : Quads} {q : Quad} :
    ((dropEntity e).apply quads).contains q = (quads.contains q && q.owner != e) := by
  have howner : ∀ a b : Quad, (a == b) = true → (a.owner != e) = (b.owner != e) := by
    intro a b hab
    rw [Quad.owner_eq_of_statement_eq (Quad.beq_iff.mp hab)]
  simp only [apply, Quads.contains_filter howner]

theorem contains_apply_dropReferences {e : Entity} {quads : Quads} {q : Quad} :
    ((dropReferences e).apply quads).contains q =
      (quads.contains q && q.object.term != e.toTerm) := by
  have hobject : ∀ a b : Quad, (a == b) = true →
      (a.object.term != e.toTerm) = (b.object.term != e.toTerm) := by
    intro a b hab
    rw [Quad.object_eq_of_beq hab]
  simp only [apply, Quads.contains_filter hobject]

end Change

end QuadSession

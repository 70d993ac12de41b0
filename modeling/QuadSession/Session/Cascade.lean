import QuadSession.Session

/-!
# Removing entities and what they leave behind

Removing an entity takes its quads away, and for a blank entity also the quads
that refer to it.  Each removed quad with a blank object may have been the last
one to refer to that blank node, which then has to go too.  The cascade works
off a list of blank nodes to visit.  A visit does nothing while the blank node is
still referred to, unless it is forced; else the entity of the blank node is
removed, and the blank objects of its quads are visited before anything else on
the list.

A visit that removes something makes the dataset smaller and one that removes
nothing adds no visits, so the cascade comes to an end on every graph of blank
nodes, cycles included.

## Main definitions

* `Contents.detach` removes one entity.
* `Contents.sweep` carries out visits and all that follow from them.
* `Contents.uproot` removes an entity and everything that goes with it.
-/

namespace QuadSession

/-- A blank node that may have to be removed. -/
structure Visit where
  blank : Blank
  /-- Whether it is removed even if something refers to it.  The blank objects of
  its own quads are then visited in the same way. -/
  forced : Bool
deriving DecidableEq, Repr

namespace Visit

/-- The visits to blank nodes that quads refer to, none of them forced. -/
def orphans (quads : List Quad) : List Visit :=
  quads.filterMap fun q => q.object.term.blank?.map fun blank => ⟨blank, false⟩

/-- The visits that the removal of an entity leads to: one for each removed quad
with a blank object other than the entity itself.  A forced removal goes on by
force where the entity owned the quad. -/
def following (e : Entity) (forced : Bool) (removed : List Quad) : List Visit :=
  removed.filterMap fun q =>
    match q.object.term.blank? with
    | some blank =>
      if Entity.blank blank = e then none else some ⟨blank, forced && q.owner == e⟩
    | none => none

end Visit

/-- An entity that was removed, with the quads that went with it. -/
structure Removal where
  entity : Entity
  quads : List Quad

namespace Contents

/-- Removes the quads of an entity and, if it is blank, the quads that refer to
it.  A blank entity is no longer counted and none is loaded any more.  The
removed quads are returned. -/
def detach (c : Contents) (e : Entity) : List Quad × Contents :=
  let (own, dataset) := c.quads.removeAll (c.quads.ownedBy e)
  let (references, dataset) :=
    dataset.removeAll (if e.isBlank then dataset.withObject e.toTerm else [])
  let removed := own ++ references
  let tally := c.tally.releaseAll removed
  (removed,
    { quads := dataset
      tally := match e.blank? with
        | some blank => tally.forget blank
        | none => tally
      loaded := c.loaded.erase e })

theorem size_detach (c : Contents) (e : Entity) :
    (c.detach e).2.quads.size + (c.detach e).1.length = c.quads.size := by
  have hown := c.quads.size_removeAll (c.quads.ownedBy e)
  have hreferences := (c.quads.removeAll (c.quads.ownedBy e)).2.size_removeAll
    (if e.isBlank then
      (c.quads.removeAll (c.quads.ownedBy e)).2.withObject e.toTerm else [])
  simp only [detach, List.length_append]
  omega

/-- Whether the blank node has to be removed now: nothing refers to it or it is
visited by force, and there is something to remove. -/
def isDue (c : Contents) (v : Visit) : Bool :=
  (v.forced || c.tally.count v.blank == 0) &&
    (c.quads.hasOwner (.blank v.blank) || !(c.quads.referrers (.blank v.blank)).isEmpty)

/-- Carries out visits one after the other, each with all that follows from it.
The entities that were removed are returned in the order of their removal. -/
def sweep (c : Contents) (visits : List Visit) : List Removal × Contents :=
  match visits with
  | [] => ([], c)
  | v :: rest =>
    if c.isDue v then
      let e := Entity.blank v.blank
      let removed := (c.detach e).1
      let (more, final) := (c.detach e).2.sweep (Visit.following e v.forced removed ++ rest)
      (⟨e, removed⟩ :: more, final)
    else c.sweep rest
termination_by (c.quads.size, visits.length)
decreasing_by
  · have hsize := c.size_detach (.blank v.blank)
    cases hremoved : (c.detach (.blank v.blank)).1 with
    | nil =>
      rw [hremoved, List.length_nil] at hsize
      simp only [Visit.following, List.filterMap_nil, List.nil_append, List.length_cons]
      rw [show (c.detach (.blank v.blank)).2.quads.size = c.quads.size by omega]
      exact Prod.Lex.right _ (Nat.lt_succ_self _)
    | cons q more =>
      rw [hremoved, List.length_cons] at hsize
      exact Prod.Lex.left _ _ (by omega)
  · exact Prod.Lex.right _ (Nat.lt_succ_self _)

/-- Removes an entity and the blank nodes that go with it.  With `forced` its
blank children go even if something else refers to them. -/
def uproot (c : Contents) (e : Entity) (forced : Bool) : List Removal × Contents :=
  let (removed, rest) := c.detach e
  let (more, final) := rest.sweep (Visit.following e forced removed)
  (⟨e, removed⟩ :: more, final)

end Contents

end QuadSession

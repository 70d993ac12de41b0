import QuadSession.Session.Cascade

/-!
# Removals that call each other

The cascade can also be told without a list of visits.  The removal of an entity visits
the blank objects of the removed quads one after the other, and a visit that is due
removes the entity of the blank node in the same way before the next visit is made.
What is still to be done is then remembered by the calls that wait for each other.

Nothing in these calls says that they come to an end.  Blank nodes may refer to each
other in a circle, and nobody keeps a list of those that were visited before.  So the
calls are given a depth here, and a call that is nested deeper fails.

## Main definitions

* `Contents.visitAll` makes visits, with a given way to remove an entity.
* `Contents.removeWithin` removes an entity by calls nested up to a depth.
* `Contents.Calls` tells which calls there are, however deep they are nested.
-/

namespace QuadSession.Contents

/-- Makes visits one after the other.  The entities of those that are due are removed by
`remove`, and returned in the order of their removal. -/
def visitAll (remove : Contents → Entity → Bool → Option (List Removal × Contents))
    (c : Contents) : List Visit → Option (List Removal × Contents)
  | [] => some ([], c)
  | v :: rest =>
    if c.isDue v then do
      let (removals, c) ← remove c (.blank v.blank) v.forced
      let (more, final) ← c.visitAll remove rest
      return (removals ++ more, final)
    else c.visitAll remove rest

/-- Removes an entity and the blank nodes that go with it, each by a call of its own.  It
fails if the calls are nested deeper than `depth`. -/
def removeWithin : Nat → Contents → Entity → Bool → Option (List Removal × Contents)
  | 0, _, _, _ => none
  | depth + 1, c, e, forced => do
    let (removed, rest) := c.detach e
    let (more, final) ← rest.visitAll (removeWithin depth) (Visit.following e forced removed)
    return (⟨e, removed⟩ :: more, final)

/-- Making the visits from the contents `c` on leads to the call that removes the entity of
the visit `w` from the contents `d`.  It is made for one of the visits themselves, or
within the call for one of them. -/
inductive Calls : Contents → List Visit → Contents → Visit → Prop where
  | here {c : Contents} {v : Visit} {rest : List Visit} (due : c.isDue v = true) :
      Calls c (v :: rest) c v
  | within {c d : Contents} {v w : Visit} {rest : List Visit} (due : c.isDue v = true)
      (call : Calls (c.detach (.blank v.blank)).2
        (Visit.following (.blank v.blank) v.forced (c.detach (.blank v.blank)).1) d w) :
      Calls c (v :: rest) d w
  | after {c d : Contents} {v w : Visit} {rest : List Visit} (due : c.isDue v = true)
      (call : Calls (c.uproot (.blank v.blank) v.forced).2 rest d w) : Calls c (v :: rest) d w
  | past {c d : Contents} {v w : Visit} {rest : List Visit} (idle : c.isDue v = false)
      (call : Calls c rest d w) : Calls c (v :: rest) d w

end QuadSession.Contents

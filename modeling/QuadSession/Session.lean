import QuadSession.ChangeLog
import QuadSession.Dataset.Audit
import QuadSession.Locale
import QuadSession.Options
import QuadSession.Tally

/-!
# Sessions

A session holds the quads of the entities that were loaded into it, counts the
references to blank nodes, and logs what has to be written back.  While it
tracks its changes it also keeps a baseline, the state that a rollback restores.

This module holds the state of a session and the questions that can be asked of
it.  What changes a session is in the modules below `QuadSession.Session`.
-/

namespace QuadSession

/-- What a session holds at a moment. -/
structure Contents where
  quads : Dataset
  /-- The references to blank nodes in `quads`. -/
  tally : Tally
  /-- The entities that were loaded and not deleted since. -/
  loaded : Std.TreeSet Entity

/-- What a rollback restores. -/
structure Baseline where
  quads : Dataset
  loaded : Std.TreeSet Entity

/-- A session.  It has a baseline exactly while it tracks its changes. -/
structure Session where
  contents : Contents
  log : ChangeLog
  baseline : Option Baseline
  closed : Bool

namespace Contents

def new (threadSafe : Bool) : Contents :=
  ⟨.new threadSafe, .empty, ∅⟩

/-- Adds quads and counts their references.  The quads that were new are
returned. -/
def add (c : Contents) (quads : List Quad) : List Quad × Contents :=
  let (added, dataset) := c.quads.addAll quads
  (added, { c with quads := dataset, tally := c.tally.retainAll added })

/-- Removes quads and takes back their references.  The quads that were there
are returned. -/
def remove (c : Contents) (quads : List Quad) : List Quad × Contents :=
  let (removed, dataset) := c.quads.removeAll quads
  (removed, { c with quads := dataset, tally := c.tally.releaseAll removed })

end Contents

namespace Baseline

def new (threadSafe : Bool) : Baseline :=
  ⟨.new threadSafe, ∅⟩

/-- The part of a session's contents that a rollback to this moment restores. -/
def ofContents (c : Contents) : Baseline :=
  ⟨c.quads, c.loaded⟩

/-- The contents to which a rollback leads.  References are counted anew. -/
def restore (b : Baseline) : Contents :=
  ⟨b.quads, .ofQuads b.quads.quads, b.loaded⟩

end Baseline

namespace Session

/-- A session that holds nothing. -/
def start (options : Options) : Session where
  contents := .new options.threadSafe
  log := .new options.threadSafe
  baseline := if options.tracking then some (.new options.threadSafe) else none
  closed := false

/-! ## Questions -/

def isThreadSafe (s : Session) : Bool :=
  s.contents.quads.threadSafe

def isTracking (s : Session) : Bool :=
  s.baseline.isSome

def size (s : Session) : Nat :=
  s.contents.quads.size

def isEmpty (s : Session) : Bool :=
  s.contents.quads.isEmpty

/-- All quads. -/
def quads (s : Session) : List Quad :=
  s.contents.quads.quads

/-- Whether the entity owns a quad. -/
def hasOwner (s : Session) (e : Entity) : Bool :=
  s.contents.quads.hasOwner e

/-- Whether the entity was loaded and not deleted since. -/
def isLoaded (s : Session) (e : Entity) : Bool :=
  s.contents.loaded.contains e

/-- The quads that the entity owns. -/
def ownedBy (s : Session) (e : Entity) : List Quad :=
  s.contents.quads.ownedBy e

/-- Whether a quad lies in the requested graph.  For a quad with a blank subject
the graph may be known only relative to the graph of its root, so there a graph
that is the end of the requested one is accepted too. -/
def liesIn (requested : Term) (q : Quad) : Bool :=
  match q.graphTerm with
  | none => false
  | some graph =>
    graph == requested ||
      (q.owner.isBlank &&
        match graph.iri?, requested.iri? with
        | some inner, some outer => inner.text.toList.isSuffixOf outer.text.toList
        | _, _ => false)

/-- The quads of the entity for the predicate, restricted to a graph if one is
named. -/
def quadsFor (s : Session) (e : Entity) (predicate : Term) (graph : Option Term) :
    List Quad :=
  (s.contents.quads.atSlot ⟨e.toTerm, .ofTerm predicate⟩).filter fun q =>
    match graph with
    | some requested => liesIn requested q
    | none => true

/-- The values of the entity for the predicate, restricted to a graph if one is
named.  A value that is found in several graphs is listed for each. -/
def valuesFor (s : Session) (e : Entity) (predicate : Term) (graph : Option Term) :
    List Node :=
  (s.quadsFor e predicate graph).map Quad.object

/-- The number of quads that refer to a blank node. -/
def referenceCount (s : Session) (t : Term) : Except Refusal Nat :=
  match t.expectBlank with
  | .ok b => .ok (s.contents.tally.count b)
  | .error mismatch => .error (.kind mismatch)

/-- The logged changes in order. -/
def changes (s : Session) : List Change :=
  s.log.changes

/-- Whether the log holds changes that have to be written back. -/
def hasChanges (s : Session) : Bool :=
  s.log.hasChanges

/-- Whether the indices agree with each other. -/
def isSound (s : Session) : Bool :=
  s.contents.quads.isSound

end Session

end QuadSession

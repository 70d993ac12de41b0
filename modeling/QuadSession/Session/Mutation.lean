import QuadSession.DeletePolicy
import QuadSession.Session.Cascade
import QuadSession.Session.Record

/-!
# Loading, replacing and deleting

The three operations that alter the quads of a session.  Each first checks
whether it is permitted, and the check is all that can fail: what follows is a
total function of the session, so a refused operation leaves nothing behind.

## Main definitions

* `Session.load` takes in the quads of an entity.
* `Session.replaceValues` puts new values in the place of those an entity has for
  a predicate.
* `Session.delete` removes an entity and what goes with it.
-/

namespace QuadSession.Session

/-- Refuses every operation on a closed session. -/
def ensureOpen (s : Session) : Except Refusal Unit :=
  if s.closed then .error (.obstacle .closed) else .ok ()

/-! ## Loading -/

/-- Takes in the quads of an entity that is not loaded.  Those that are new to
the session also become part of the baseline. -/
def loaded (s : Session) (e : Entity) (quads : List Quad) : Session :=
  if s.isLoaded e then s
  else
    let (added, contents) := s.contents.add quads
    { s with
      contents := { contents with loaded := contents.loaded.insert e }
      baseline := s.baseline.map fun b =>
        { quads := (b.quads.addAll added).2, loaded := b.loaded.insert e } }

/-- Takes in the quads of an entity.  Loading an entity twice has no effect. -/
def load (s : Session) (e : Entity) (quads : List Quad) : Except Refusal Session := do
  s.ensureOpen
  return s.loaded e quads

/-! ## Replacing values -/

/-- The quads whose values are replaced: those that the entity owns for the
predicate, restricted to a graph if one is named and to the literals of a locale
if one is given. -/
def selected (s : Session) (e : Entity) (predicate : Term) (graph : Option Term)
    (locale : Option Locale) : List Quad :=
  (s.quadsFor e predicate graph).filter fun q =>
    q.owner == e &&
      match locale with
      | some locale => locale.selects q.object.term
      | none => true

/-- The quads that state the values in the graph. -/
def quadsOfValues (e : Entity) (predicate : Predicate) (graph : Option Node)
    (values : List Node) : List Quad :=
  values.map fun value => ⟨e, predicate, value, graph⟩

/-- Replaces the selected values by new ones.  Blank nodes that lost their last
reference go too.  Quads that were removed and put back are not recorded. -/
def replaced (s : Session) (e : Entity) (predicate : Predicate) (values : List Node)
    (graph : Option Node) (locale : Option Locale) : Session :=
  let (removed, contents) :=
    s.contents.remove (s.selected e predicate.term (graph.map Node.term) locale)
  let (added, contents) := contents.add (quadsOfValues e predicate graph values)
  let (collected, contents) := contents.sweep (Visit.orphans removed)
  let lost := removed.filter (fun q => !added.contains q) ++ collected.flatMap Removal.quads
  let gained := added.filter fun q => !removed.contains q
  { s with
    contents
    log := if s.isTracking then s.log.addAll (editsOf contents.quads e lost gained) else s.log }

/-- Checks that values may be replaced for the predicate. -/
def admitReplace (s : Session) (predicate : Node) : Except Refusal Predicate := do
  s.ensureOpen
  (Predicate.ofNode predicate).mapError .kind

/-- Replaces the values of an entity for a predicate.  The new values are
computed once if the operation is permitted, and else not at all. -/
def replaceValues {m : Type → Type} [Monad m] (s : Session) (e : Entity) (predicate : Node)
    (values : m (List Node)) (graph : Option Node) (locale : Option Locale) :
    m (Except Refusal Session) :=
  match s.admitReplace predicate with
  | .error error => pure (.error error)
  | .ok predicate => do return .ok (s.replaced e predicate (← values) graph locale)

/-! ## Deleting -/

/-- The changes by which a deletion is recorded.  The quads of the entity and the
references to it are covered by the changes that reach into every graph, so
single graphs are recorded only where a quad with a blank node was removed. -/
def deletionOf (d : Dataset) (e : Entity) (policy : DeletePolicy) (removed : List Quad) :
    List Change :=
  editsOf d e (removed.filter fun q => blankIn removed q.graphTerm) [] ++
    if e.isBlank then []
    else .dropEntity e :: if policy.nullifyReferences then [.dropReferences e] else []

/-- Removes an entity and the blank nodes that go with it. -/
def deleted (s : Session) (e : Entity) (policy : DeletePolicy) : Session :=
  let (removals, contents) := s.contents.uproot e policy.deleteChildren
  let nullify := policy.nullifyReferences && !e.isBlank
  let (references, dataset) :=
    if nullify then contents.quads.removeWithObject e.toTerm else ([], contents.quads)
  let removed := removals.flatMap Removal.quads ++ references
  { s with
    contents := { contents with quads := dataset }
    log := if s.isTracking then s.log.addAll (deletionOf dataset e policy removed) else s.log }

/-- Removes an entity and the blank nodes that go with it, as the policy
says. -/
def delete (s : Session) (e : Entity) (policy : DeletePolicy) : Except Refusal Session := do
  s.ensureOpen
  return s.deleted e policy

end QuadSession.Session

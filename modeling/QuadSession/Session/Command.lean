import QuadSession.Session.Lifecycle

/-!
# Commands and runs

Every operation that may alter a session, as data, so that a history of a session
is a list of commands.  A refused command leaves the session as it was.
-/

namespace QuadSession

/-- An operation on a session with its arguments. -/
inductive Command where
  | load (entity : Entity) (quads : List Quad)
  | replace (entity : Entity) (predicate : Node) (values : List Node) (graph : Option Node)
      (locale : Option Locale)
  | delete (entity : Entity) (policy : DeletePolicy)
  | reset
  | rollback
  | takeChanges
  | setThreadSafe (threadSafe : Bool)
  | setTracking (tracking : Bool)
  | dispose

namespace Session

/-- Carries out a command, or says why it is refused. -/
def perform (s : Session) : Command → Except Refusal Session
  | .load e quads => s.load e quads
  | .replace e predicate values graph locale =>
    Id.run (s.replaceValues e predicate (pure values) graph locale)
  | .delete e policy => s.delete e policy
  | .reset => s.reset
  | .rollback => s.rollback
  | .takeChanges => .ok s.takeChanges.2
  | .setThreadSafe threadSafe => s.setThreadSafe threadSafe
  | .setTracking tracking => s.setTracking tracking
  | .dispose => .ok s.dispose

/-- The session after a command, whether or not it was refused. -/
def step (s : Session) (command : Command) : Session :=
  match s.perform command with
  | .ok next => next
  | .error _ => s

/-- The session after a list of commands. -/
def run (s : Session) (commands : List Command) : Session :=
  commands.foldl step s

end Session

end QuadSession

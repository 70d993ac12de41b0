import QuadSession.Session.Mutation

/-!
# The life of a session

Resetting makes the present state the one that a rollback restores.  Options can
be switched while the session holds no data.  A closed session refuses every
operation and answers every question as an empty one.
-/

namespace QuadSession.Session

/-- Makes the present state the baseline, and clears the log. -/
def reset (s : Session) : Except Refusal Session := do
  s.ensureOpen
  return { s with
    baseline := s.baseline.map fun _ => .ofContents s.contents
    log := s.log.clear }

/-- Restores the baseline, and clears the log. -/
def rollback (s : Session) : Except Refusal Session := do
  s.ensureOpen
  match s.baseline with
  | none => .error (.obstacle .noBaseline)
  | some baseline => return { s with contents := baseline.restore, log := s.log.clear }

/-- Takes all changes out of the log.  The baseline stays as it is. -/
def takeChanges (s : Session) : List Change × Session :=
  (s.log.drain.1, { s with log := s.log.drain.2 })

/-- Whether the session holds quads or logged changes. -/
def holdsData (s : Session) : Bool :=
  !s.isEmpty || !s.log.isEmpty

/-- Switches the mode for use by several threads, which is possible while the
session holds no data.  A baseline starts anew with it. -/
def setThreadSafe (s : Session) (threadSafe : Bool) : Except Refusal Session := do
  s.ensureOpen
  if s.isThreadSafe = threadSafe then return s
  if s.holdsData then .error (.obstacle .modeLocked)
  let log ← (s.log.setThreadSafe threadSafe).mapError .obstacle
  return { s with
    contents := { s.contents with quads := .new threadSafe }
    baseline := s.baseline.map fun _ => .new threadSafe
    log }

/-- Switches the tracking of changes, which is possible while the session holds no
quads.  Logged changes are dropped. -/
def setTracking (s : Session) (tracking : Bool) : Except Refusal Session := do
  s.ensureOpen
  if s.isTracking = tracking then return s
  if !s.isEmpty then .error (.obstacle .trackingLocked)
  return { s with
    baseline := if tracking then some (.new s.isThreadSafe) else none
    log := s.log.clear }

/-- Closes the session for good and lets go of everything it holds. -/
def dispose (s : Session) : Session :=
  if s.closed then s
  else
    { contents := .new s.isThreadSafe
      log := s.log.clear
      baseline := none
      closed := true }

end QuadSession.Session

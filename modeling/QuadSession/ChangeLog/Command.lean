import QuadSession.ChangeLog

/-!
# Histories of a log

The two ways in which changes go into a log and come out of it, as data.  A log
folds changes into each other and forgets what was taken out of it, so a history
keeps a record of both beside the log.

All calls by which a log changes, with those that only discard changes or switch
the mode, are operations.
-/

namespace QuadSession.ChangeLog

/-- A use of a log. -/
inductive Command where
  | add (change : Change)
  | drain

/-- A log together with what went in and what came out. -/
structure History where
  /-- The changes that were added, in order. -/
  added : List Change
  /-- The changes that were taken out, one list after the other. -/
  drained : List Change
  log : ChangeLog

namespace History

/-- The history of a log that was not used yet. -/
def start (threadSafe : Bool) : History :=
  ⟨[], [], new threadSafe⟩

/-- The history after a use of the log. -/
def step (h : History) : Command → History
  | .add change => ⟨h.added ++ [change], h.drained, h.log.add change⟩
  | .drain => ⟨h.added, h.drained ++ h.log.drain.1, h.log.drain.2⟩

/-- The history after a list of uses. -/
def run (h : History) (commands : List Command) : History :=
  commands.foldl step h

/-- All that the log has said: what came out of it, and then what it lists. -/
def told (h : History) : List Change :=
  h.drained ++ h.log.changes

end History

/-- A call that changes a log. -/
inductive Operation where
  | add (change : Change)
  | drain
  | clear
  | setThreadSafe (threadSafe : Bool)

/-- The log after an operation.  A refused one leaves it as it is. -/
def step (log : ChangeLog) : Operation → ChangeLog
  | .add change => log.add change
  | .drain => log.drain.2
  | .clear => log.clear
  | .setThreadSafe threadSafe =>
    match log.setThreadSafe threadSafe with
    | .ok switched => switched
    | .error _ => log

/-- The log after a list of operations. -/
def run (log : ChangeLog) (operations : List Operation) : ChangeLog :=
  operations.foldl step log

end QuadSession.ChangeLog

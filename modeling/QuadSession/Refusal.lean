import QuadSession.Term

/-!
# Refusals

Absence is never an error.  An operation is refused for one of two causes: a
node of the wrong kind was passed, or the state of the session stands in the way
of the operation.
-/

namespace QuadSession

/-- A state that stands in the way of an operation. -/
inductive Obstacle where
  /-- The mode for use by several threads cannot be switched while data is held. -/
  | modeLocked
  /-- The tracking of changes cannot be switched while quads are held. -/
  | trackingLocked
  /-- There is nothing to go back to while changes are not tracked. -/
  | noBaseline
  /-- The session has been closed. -/
  | closed
deriving DecidableEq, Repr

def Obstacle.message : Obstacle → String
  | modeLocked => "Thread-safety cannot be changed once the store holds data."
  | trackingLocked => "Change tracking cannot be changed once the store holds data."
  | noBaseline => "Rollback is unavailable while change tracking is disabled."
  | closed => "The store has been disposed."

/-- Why an operation on a session was refused. -/
inductive Refusal where
  | kind (mismatch : KindMismatch)
  | obstacle (met : Obstacle)
deriving DecidableEq, Repr

namespace Refusal

def message : Refusal → String
  | kind mismatch => mismatch.message
  | obstacle met => met.message

/-- The two classes into which a caller that reports failures of input and
output sorts a refusal. -/
inductive Category where
  | invalidInput
  | other
deriving DecidableEq, Repr

def Category.name : Category → String
  | invalidInput => "InvalidInput"
  | other => "Other"

/-- A node of the wrong kind is a fault of the input, an obstacle is not. -/
def category : Refusal → Category
  | kind _ => .invalidInput
  | obstacle _ => .other

end Refusal

end QuadSession

import QuadSession.Dataset

/-!
# Changes of a dataset and of its copies

The changes of a dataset, as data, so that a history of a dataset is a list of
commands.  A dataset may be copied at any time; from then on the copy and the
original go their own ways, so a history with copies is about a list of
datasets.
-/

namespace QuadSession.Dataset

/-- A change of a dataset with its arguments. -/
inductive Command where
  | add (quad : Quad)
  | remove (quad : Quad)
  | removeWithObject (object : Term)
  | clear
  | setThreadSafe (threadSafe : Bool)

/-- The dataset after a change.  A refused change leaves it as it was. -/
def step (d : Dataset) : Command → Dataset
  | .add q => (d.add q).2
  | .remove q => (d.remove q).2
  | .removeWithObject object => (d.removeWithObject object).2
  | .clear => d.clear
  | .setThreadSafe threadSafe =>
    match d.setThreadSafe threadSafe with
    | .ok next => next
    | .error _ => d

/-- The dataset after a list of changes. -/
def run (d : Dataset) (commands : List Command) : Dataset :=
  commands.foldl step d

/-- A step in the history of a dataset and its copies. -/
inductive CopyCommand where
  /-- Changes one of the datasets. -/
  | change (index : Nat) (command : Command)
  /-- Puts a copy of one of the datasets at the end of the list. -/
  | copy (index : Nat)

/-- The datasets after a step.  An index that no dataset has leaves them as they
were. -/
def stepCopies (copies : List Dataset) : CopyCommand → List Dataset
  | .change index command => copies.modify index fun d => d.step command
  | .copy index => copies ++ copies[index]?.toList

/-- The datasets after a list of steps. -/
def runCopies (copies : List Dataset) (commands : List CopyCommand) : List Dataset :=
  commands.foldl stepCopies copies

end QuadSession.Dataset

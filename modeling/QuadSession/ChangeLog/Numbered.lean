import QuadSession.ChangeLog.Command

/-!
# Logs with numbered stacks

A map finds the stack of a graph without a search, but it does not keep the order in
which its stacks were made.  So a log that keeps its stacks in a map counts the edits
that are added to it, and a stack that is made takes the count as its number.  Where
the order matters, the stacks are sorted by their numbers.

To settle its stacks, such a log takes them out of the map and sorts them, and it goes on
counting where it was.  Draining takes out what is settled too, and starts the count anew.
-/

namespace QuadSession

/-- The stack of a graph that remembers when the graph was first touched. -/
structure NumberedStack where
  /-- Zero for a stack that was not touched yet. -/
  number : Nat
  latest : List GraphEdit

namespace NumberedStack

def new : NumberedStack :=
  ⟨0, []⟩

/-- Pushes the edit with the given number on the stack. -/
def touch (stack : NumberedStack) (number : Nat) (c : GraphEdit) : NumberedStack :=
  ⟨if stack.number = 0 then number else stack.number, GraphStack.push stack.latest c⟩

end NumberedStack

/-- A stack of a map with its graph. -/
abbrev StackEntry := Option Term × NumberedStack

/-- The stack without its number. -/
def StackEntry.stack (entry : StackEntry) : GraphStack :=
  ⟨entry.1, entry.2.latest⟩

/-- Changes in order: those whose order is settled, then one numbered stack per
graph. -/
structure NumberedLog where
  settled : List Change
  byGraph : Std.TreeMap (Option Term) NumberedStack
  /-- How many edits were added. -/
  count : Nat
  threadSafe : Bool

namespace NumberedLog

/-- A log without changes. -/
def new (threadSafe : Bool) : NumberedLog :=
  ⟨[], ∅, 0, threadSafe⟩

/-! ## Questions -/

/-- The stacks with their graphs, sorted by number. -/
def byNumber (log : NumberedLog) : List StackEntry :=
  log.byGraph.toList.mergeSort fun a b => a.2.number ≤ b.2.number

/-- The stacks in the order of their numbers. -/
def unsettled (log : NumberedLog) : List GraphStack :=
  log.byNumber.map StackEntry.stack

/-- All changes in order. -/
def changes (log : NumberedLog) : List Change :=
  log.settled ++ log.unsettled.flatMap GraphStack.changes

/-- The edits of a graph in order, the default graph if none is named. -/
def forGraph (log : NumberedLog) (graph : Option Term) : List Change :=
  log.settled.filter (fun change => change.editsGraph graph) ++
    match log.byGraph[graph]? with
    | some stack => GraphStack.changes ⟨graph, stack.latest⟩
    | none => []

/-- The number of changes. -/
def size (log : NumberedLog) : Nat :=
  log.settled.length + (log.byGraph.toList.flatMap fun entry => entry.2.latest).length

def isEmpty (log : NumberedLog) : Bool :=
  log.size == 0

/-- Whether there are changes and no stack was emptied. -/
def hasChanges (log : NumberedLog) : Bool :=
  (!log.settled.isEmpty || log.byGraph.toList.any fun entry => !entry.2.latest.isEmpty) &&
    log.byGraph.toList.all fun entry => !entry.2.latest.isEmpty

/-! ## Changes of the log -/

/-- Takes all stacks out of the map, in the order of their numbers. -/
def takeStacks (log : NumberedLog) : List StackEntry × NumberedLog :=
  (log.byNumber, { log with byGraph := ∅ })

/-- Settles the order of the stacks. -/
def settle (log : NumberedLog) : NumberedLog :=
  let (taken, log) := log.takeStacks
  if taken.isEmpty then log
  else
    { log with settled := log.settled ++ taken.flatMap fun entry => entry.stack.changes }

/-- Logs a change.  A change without effect is not logged. -/
def add (log : NumberedLog) (change : Change) : NumberedLog :=
  if change.isEmpty then log
  else
    match change with
    | .inGraph edit =>
      let number := log.count + 1
      let stack := (log.byGraph[edit.graphTerm]?.getD .new).touch number edit
      { log with byGraph := log.byGraph.insert edit.graphTerm stack, count := number }
    | change =>
      let log := log.settle
      { log with settled := log.settled ++ [change] }

/-- Logs changes one after the other. -/
def addAll (log : NumberedLog) (changes : List Change) : NumberedLog :=
  changes.foldl add log

/-- The same log without changes. -/
def clear (log : NumberedLog) : NumberedLog :=
  { log with settled := [], byGraph := ∅, count := 0 }

/-- All changes in order, and the log without them. -/
def drain (log : NumberedLog) : List Change × NumberedLog :=
  let (taken, rest) := { log with settled := [] }.takeStacks
  (log.settled ++ taken.flatMap fun entry => entry.stack.changes, { rest with count := 0 })

/-- Switches the mode, which is possible while no changes are held. -/
def setThreadSafe (log : NumberedLog) (threadSafe : Bool) : Except Obstacle NumberedLog :=
  if log.threadSafe = threadSafe then .ok log
  else if log.isEmpty then .ok (new threadSafe)
  else .error .modeLocked

/-- The log after an operation.  A refused one leaves it as it is. -/
def step (log : NumberedLog) : ChangeLog.Operation → NumberedLog
  | .add change => log.add change
  | .drain => log.drain.2
  | .clear => log.clear
  | .setThreadSafe threadSafe =>
    match log.setThreadSafe threadSafe with
    | .ok switched => switched
    | .error _ => log

/-- The log after a list of operations. -/
def run (log : NumberedLog) (operations : List ChangeLog.Operation) : NumberedLog :=
  operations.foldl step log

end NumberedLog

end QuadSession

import QuadSession.Change
import QuadSession.Refusal

/-!
# The log of changes

A log keeps changes in the order in which they have to be carried out.  Edits of
different graphs do not disturb each other, so the log keeps one stack per graph
and folds an edit into the top of its stack where possible.  A change that
reaches into every graph separates what was logged before it from what comes
after: it moves all stacks, in the order in which their graphs were first
touched, to the part of the log whose order is settled, and is put behind them.

A stack whose last edits cancelled each other stays behind empty and keeps its
place in the order.

## Main definitions

* `ChangeLog.add` logs a change, and `ChangeLog.changes` lists what is logged.
* `ChangeLog.drain` takes everything out.

## Main statements

* `length_changes` says that `ChangeLog.size` counts the listed changes.
-/

namespace QuadSession

/-- The edits of one graph that are not settled yet, the latest first. -/
structure GraphStack where
  graph : Option Term
  latest : List GraphEdit

namespace GraphStack

/-- The edits of the stack in the order in which they were made. -/
def changes (s : GraphStack) : List Change :=
  s.latest.reverse.map .inGraph

/-- Puts an edit on top of the stack, or folds it into the top.  If the folded
edit is empty, the top is gone. -/
def push (latest : List GraphEdit) (change : GraphEdit) : List GraphEdit :=
  match latest with
  | [] => [change]
  | top :: below =>
    match top.merge? change with
    | some merged => if merged.isEmpty then below else merged :: below
    | none => change :: top :: below

end GraphStack

/-- Changes in order: those whose order is settled, then one stack per graph. -/
structure ChangeLog where
  settled : List Change
  /-- The stacks of the other changes, in the order in which their graphs were first
  touched. -/
  unsettled : List GraphStack
  threadSafe : Bool

namespace ChangeLog

/-- A log without changes. -/
def new (threadSafe : Bool) : ChangeLog :=
  ⟨[], [], threadSafe⟩

/-! ## Questions -/

/-- The changes whose order is not settled, stack by stack. -/
def unsettledChanges (log : ChangeLog) : List Change :=
  log.unsettled.flatMap GraphStack.changes

/-- All changes in order. -/
def changes (log : ChangeLog) : List Change :=
  log.settled ++ log.unsettledChanges

/-- The edits of a graph in order, the default graph if none is named. -/
def forGraph (log : ChangeLog) (graph : Option Term) : List Change :=
  log.settled.filter (fun change => change.editsGraph graph) ++
    match log.unsettled.find? fun stack => stack.graph == graph with
    | some stack => stack.changes
    | none => []

/-- The number of changes. -/
def size (log : ChangeLog) : Nat :=
  log.settled.length + (log.unsettled.flatMap GraphStack.latest).length

def isEmpty (log : ChangeLog) : Bool :=
  log.size == 0

/-- Whether there are changes and no stack was emptied. -/
def hasChanges (log : ChangeLog) : Bool :=
  (!log.settled.isEmpty || log.unsettled.any fun stack => !stack.latest.isEmpty) &&
    log.unsettled.all fun stack => !stack.latest.isEmpty

/-- The changes one to a line. -/
def render (log : ChangeLog) : String :=
  "\n".intercalate (log.changes.map Change.render)

/-! ## Changes of the log -/

/-- Pushes an edit on the stack of its graph, which is made if it is not
there. -/
def pushOnStack (change : GraphEdit) : List GraphStack → List GraphStack
  | [] => [⟨change.graphTerm, [change]⟩]
  | stack :: rest =>
    if stack.graph = change.graphTerm then
      { stack with latest := GraphStack.push stack.latest change } :: rest
    else stack :: pushOnStack change rest

/-- Logs a change.  A change without effect is not logged. -/
def add (log : ChangeLog) (change : Change) : ChangeLog :=
  if change.isEmpty then log
  else
    match change with
    | .inGraph edit => { log with unsettled := pushOnStack edit log.unsettled }
    | change => { log with settled := log.changes ++ [change], unsettled := [] }

/-- Logs changes one after the other. -/
def addAll (log : ChangeLog) (changes : List Change) : ChangeLog :=
  changes.foldl add log

/-- The same log without changes. -/
def clear (log : ChangeLog) : ChangeLog :=
  new log.threadSafe

/-- All changes in order, and the log without them. -/
def drain (log : ChangeLog) : List Change × ChangeLog :=
  (log.changes, log.clear)

/-- Switches the mode, which is possible while no changes are held. -/
def setThreadSafe (log : ChangeLog) (threadSafe : Bool) : Except Obstacle ChangeLog :=
  if log.threadSafe = threadSafe then .ok log
  else if log.isEmpty then .ok (new threadSafe)
  else .error .modeLocked

/-! ## Small facts -/

@[simp] theorem changes_clear (log : ChangeLog) : log.clear.changes = [] := rfl

theorem add_of_isEmpty (log : ChangeLog) {change : Change} (h : change.isEmpty = true) :
    log.add change = log :=
  if_pos h

theorem length_changes (log : ChangeLog) : log.changes.length = log.size := by
  simp [changes, unsettledChanges, size, List.length_flatMap, GraphStack.changes]

end ChangeLog

end QuadSession

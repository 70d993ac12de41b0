import Mathlib.Data.List.Basic
import Mathlib.Data.List.Induction
import QuadSession.Proofs.Numbering
import QuadSession.Proofs.Sample

/-!
# What a log lists

A log works in steps: it pushes edits on the stacks of their graphs, and settles all
stacks whenever a change crosses graphs.  This file says what comes of it without the
steps, for any sequence of changes added to a log that was new.  The sequence, less
the changes without effect, is cut at the changes that cross graphs.  Each segment is
listed for itself: graph by graph, in the order in which the segment first touches
the graphs, the edits of a graph folded into each other from the left, and at the end
the change that closes the segment.

## Strategy

Adding a change at the end of the sequence either adds an edit to the last segment or
closes it, so all statements are proved by induction on the sequence from its end.
That the stacks are those of the last segment is an equation between lists of stacks,
and such a list is determined by the order of its graphs and by what lies on the
stack of each graph (`eq_map_latestIn`).

## Main definitions

* `Cut`: a sequence of changes cut at the changes that cross graphs.
* `ChangeLog.regrouped`: the stacks to which a list of edits leads.
* `Segment.listed`: what a log lists for a segment.

## Main statements

* `ChangeLog.addAll_new`: the state of a log after a sequence of changes.
* `ChangeLog.listed_by_segments`: what the log answers then.
-/

namespace QuadSession

/-! ## Cutting a sequence of changes -/

/-- Edits up to a change that crosses graphs. -/
structure Segment where
  edits : List GraphEdit
  closing : Change
  crosses : closing.crossesGraphs = true

/-- The changes of the segment in order. -/
def Segment.changes (segment : Segment) : List Change :=
  segment.edits.map .inGraph ++ [segment.closing]

/-- The segment without the edits of other graphs. -/
def Segment.onGraph (segment : Segment) (graph : Option Term) : Segment :=
  { segment with edits := segment.edits.filter fun c => c.graphTerm == graph }

/-- A sequence of changes in segments, and the edits after the last one. -/
structure Cut where
  segments : List Segment
  rest : List GraphEdit

namespace Cut

/-- The sequence of changes that was cut. -/
def changes (cut : Cut) : List Change :=
  cut.segments.flatMap Segment.changes ++ cut.rest.map .inGraph

/-- Closes a segment. -/
def close (cut : Cut) (change : Change) (h : change.crossesGraphs = true) : Cut :=
  ⟨cut.segments ++ [⟨cut.rest, change, h⟩], []⟩

/-- Adds a change at the end of the sequence. -/
def add (cut : Cut) : Change → Cut
  | .inGraph c => { cut with rest := cut.rest ++ [c] }
  | .dropEntity e => cut.close (.dropEntity e) rfl
  | .dropReferences e => cut.close (.dropReferences e) rfl

/-- Cuts a sequence of changes. -/
def ofChanges (changes : List Change) : Cut :=
  changes.foldl add ⟨[], []⟩

theorem ofChanges_append (changes : List Change) (change : Change) :
    ofChanges (changes ++ [change]) = (ofChanges changes).add change :=
  List.foldl_append

theorem add_of_crossesGraphs (cut : Cut) {change : Change} (h : change.crossesGraphs = true) :
    cut.add change = cut.close change h := by
  cases change with
  | inGraph c => cases h
  | dropEntity e => rfl
  | dropReferences e => rfl

theorem changes_add (cut : Cut) (change : Change) :
    (cut.add change).changes = cut.changes ++ [change] := by
  cases hcrosses : change.crossesGraphs with
  | true =>
      rw [add_of_crossesGraphs cut hcrosses, changes, changes, close, List.flatMap_append,
        List.flatMap_singleton, Segment.changes, List.map_nil, List.append_nil, List.append_assoc]
  | false =>
      obtain ⟨c, rfl⟩ := Change.exists_eq_inGraph hcrosses
      simp only [add, changes, List.map_append, List.map_singleton, List.append_assoc]

/-- Put together again, the pieces are the sequence that was cut. -/
theorem changes_ofChanges (changes : List Change) : (ofChanges changes).changes = changes := by
  induction changes using List.reverseRecOn with
  | nil => rfl
  | append_singleton changes change ih => rw [ofChanges_append, changes_add, ih]

/-! ### The part of one graph -/

/-- The cut of the edits of one graph and the changes that cross graphs. -/
def onGraph (cut : Cut) (graph : Option Term) : Cut :=
  ⟨cut.segments.map fun segment => segment.onGraph graph,
    cut.rest.filter fun c => c.graphTerm == graph⟩

theorem onGraph_add (cut : Cut) (change : Change) (graph : Option Term) :
    (cut.add change).onGraph graph =
      if change.editsGraph graph || change.crossesGraphs then (cut.onGraph graph).add change
      else cut.onGraph graph := by
  cases change with
  | inGraph c =>
      by_cases h : c.graphTerm = graph
      · simp [add, onGraph, Change.editsGraph, List.filter_append, h]
      · simp [add, onGraph, Change.editsGraph, Change.crossesGraphs, List.filter_append, h]
  | dropEntity e => simp [add, close, onGraph, Segment.onGraph, Change.crossesGraphs]
  | dropReferences e => simp [add, close, onGraph, Segment.onGraph, Change.crossesGraphs]

theorem ofChanges_filter (changes : List Change) (graph : Option Term) :
    ofChanges (changes.filter fun change => change.editsGraph graph || change.crossesGraphs) =
      (ofChanges changes).onGraph graph := by
  induction changes using List.reverseRecOn with
  | nil => rfl
  | append_singleton changes change ih =>
      rw [ofChanges_append, onGraph_add, List.filter_append, ← ih]
      cases h : change.editsGraph graph || change.crossesGraphs with
      | true => simp [h, ofChanges_append]
      | false => simp [h]

end Cut

/-! ## The stacks of a list of edits -/

/-- An item at the end of a list is kept if and only if it is the first of its kind. -/
theorem eraseDups_append_singleton {α : Type} [BEq α] [LawfulBEq α] (items : List α) (a : α) :
    (items ++ [a]).eraseDups =
      if items.contains a then items.eraseDups else items.eraseDups ++ [a] := by
  rw [List.eraseDups_append, List.removeAll, List.filter_cons, List.filter_nil]
  by_cases h : a ∈ items
  · simp [h]
  · simp [h, List.eraseDups_cons]

/-- A list of stacks is determined by the order of its graphs and by what lies on the
stack of each graph. -/
theorem eq_map_latestIn {unsettled : List GraphStack}
    (hdistinct : (unsettled.map GraphStack.graph).Nodup) :
    unsettled =
      (unsettled.map GraphStack.graph).map fun graph => ⟨graph, latestIn graph unsettled⟩ := by
  rw [List.map_map]
  calc unsettled
      = unsettled.map id := (List.map_id unsettled).symm
    _ = unsettled.map ((fun graph => ⟨graph, latestIn graph unsettled⟩) ∘ GraphStack.graph) :=
      List.map_congr_left fun stack hstack =>
        congrArg (GraphStack.mk stack.graph) (latestIn_of_mem hdistinct hstack).symm

namespace GraphStack

/-- The stack of a graph to which a list of edits leads: those of the graph, pushed
one after the other. -/
def ofEdits (edits : List GraphEdit) (graph : Option Term) : GraphStack :=
  ⟨graph, (edits.filter fun c => c.graphTerm == graph).foldl push []⟩

theorem latest_ofEdits_append (edits : List GraphEdit) (c : GraphEdit) (graph : Option Term) :
    (ofEdits (edits ++ [c]) graph).latest =
      if c.graphTerm = graph then push (ofEdits edits graph).latest c
      else (ofEdits edits graph).latest := by
  unfold ofEdits
  by_cases h : c.graphTerm = graph
  · simp [List.filter_append, h]
  · simp [List.filter_append, h]

/-- On the stack of a graph lie edits of this graph. -/
theorem graphTerm_eq_of_mem_ofEdits {edits : List GraphEdit} {graph : Option Term} :
    ∀ c ∈ (ofEdits edits graph).latest, c.graphTerm = graph := by
  induction edits using List.reverseRecOn with
  | nil => exact fun c hc => absurd hc List.not_mem_nil
  | append_singleton edits c ih =>
      rw [latest_ofEdits_append]
      split
      · rename_i hgraph
        exact forall_mem_push ih hgraph fun top merged _ hmerge _ =>
          (GraphEdit.foldsTo_of_merge? hmerge).graph_merged.trans hgraph
      · exact ih

/-- Edits of other graphs do not matter to a stack. -/
theorem ofEdits_filter (edits : List GraphEdit) (graph : Option Term) :
    ofEdits (edits.filter fun c => c.graphTerm == graph) graph = ofEdits edits graph := by
  rw [ofEdits, List.filter_filter]
  simp only [Bool.and_self]
  rfl

end GraphStack

namespace ChangeLog

/-- The stacks to which a list of edits leads, one for each graph in the order in which
the graphs are first touched. -/
def regrouped (edits : List GraphEdit) : List GraphStack :=
  (edits.map GraphEdit.graphTerm).eraseDups.map (GraphStack.ofEdits edits)

/-- The stacks after a list of edits, pushed one after the other. -/
def pushAll (edits : List GraphEdit) : List GraphStack :=
  edits.foldl (fun unsettled c => pushOnStack c unsettled) []

theorem pushAll_append (edits : List GraphEdit) (c : GraphEdit) :
    pushAll (edits ++ [c]) = pushOnStack c (pushAll edits) :=
  List.foldl_append

theorem nodup_graphs_pushAll (edits : List GraphEdit) :
    ((pushAll edits).map GraphStack.graph).Nodup := by
  induction edits using List.reverseRecOn with
  | nil => exact List.nodup_nil
  | append_singleton edits c ih =>
      rw [pushAll_append]
      exact nodup_graphs_pushOnStack ih

theorem graphs_pushAll (edits : List GraphEdit) :
    (pushAll edits).map GraphStack.graph = (edits.map GraphEdit.graphTerm).eraseDups := by
  induction edits using List.reverseRecOn with
  | nil => rfl
  | append_singleton edits c ih =>
      rw [pushAll_append, graphs_pushOnStack, ih, List.map_append, List.map_singleton,
        eraseDups_append_singleton]
      simp only [List.mem_eraseDups, List.contains_iff_mem]

theorem latestIn_pushAll (edits : List GraphEdit) (graph : Option Term) :
    latestIn graph (pushAll edits) = (GraphStack.ofEdits edits graph).latest := by
  induction edits using List.reverseRecOn with
  | nil => rfl
  | append_singleton edits c ih =>
      rw [pushAll_append, latestIn_pushOnStack, ih, GraphStack.latest_ofEdits_append]

theorem pushAll_eq_regrouped (edits : List GraphEdit) : pushAll edits = regrouped edits := by
  rw [eq_map_latestIn (nodup_graphs_pushAll edits), graphs_pushAll, regrouped]
  exact List.map_congr_left fun graph _ =>
    congrArg (GraphStack.mk graph) (latestIn_pushAll edits graph)

end ChangeLog

/-- What a log lists for a segment: its edits graph by graph, and the change that closes
it. -/
def Segment.listed (segment : Segment) : List Change :=
  (ChangeLog.regrouped segment.edits).flatMap GraphStack.changes ++ [segment.closing]

namespace ChangeLog

/-! ## The state of a log -/

/-- The log that has settled the segments of a cut and keeps the rest on stacks. -/
def ofCut (threadSafe : Bool) (cut : Cut) : ChangeLog :=
  ⟨cut.segments.flatMap Segment.listed, pushAll cut.rest, threadSafe⟩

theorem add_ofCut (threadSafe : Bool) (cut : Cut) {change : Change}
    (h : change.isEmpty = false) :
    (ofCut threadSafe cut).add change = ofCut threadSafe (cut.add change) := by
  cases hcrosses : change.crossesGraphs with
  | true =>
      rw [add_of_crossesGraphs _ hcrosses, Cut.add_of_crossesGraphs cut hcrosses]
      simp only [ofCut, Cut.close, changes, unsettledChanges, pushAll_eq_regrouped,
        List.flatMap_append, List.flatMap_singleton, Segment.listed, List.append_assoc]
      rfl
  | false =>
      obtain ⟨c, rfl⟩ := Change.exists_eq_inGraph hcrosses
      rw [add_inGraph _ h]
      simp only [ofCut, Cut.add, pushAll_append]

/-- A sequence of changes, less those without effect, leads to the log that has settled
its segments. -/
theorem addAll_new (threadSafe : Bool) (changes : List Change) :
    (new threadSafe).addAll changes =
      ofCut threadSafe (.ofChanges (changes.filter fun c => !c.isEmpty)) := by
  induction changes using List.reverseRecOn with
  | nil => rfl
  | append_singleton changes change ih =>
      have hadd : (new threadSafe).addAll (changes ++ [change]) =
          ((new threadSafe).addAll changes).add change := List.foldl_append
      rw [hadd, ih]
      cases hempty : change.isEmpty with
      | true => simp [add_of_isEmpty _ hempty, List.filter_append, hempty]
      | false =>
          rw [add_ofCut threadSafe _ hempty, List.filter_append]
          simp [hempty, Cut.ofChanges_append]

open Sample in
/-- The graph that is touched first comes first, although its edits cancel out in
between. -/
example :
    let moved := Quads.ofList [fact (.iri person) livesAt (.blank address)]
    let graph := some (Node.ofTerm (.iri knows))
    let log := (new false).addAll [.inGraph ⟨.iri person, graph, .update ∅ moved⟩,
      .inGraph ⟨.iri friend, none, .update ∅ moved⟩,
      .inGraph ⟨.iri person, graph, .update moved ∅⟩,
      .inGraph ⟨.iri person, graph, .overwrite moved⟩]
    log.changes.map Change.entity = [.iri person, .iri friend] := by
  decide

/-! ## The edits of one graph -/

theorem filter_changes {stack : GraphStack} (hown : ∀ c ∈ stack.latest, c.graphTerm = stack.graph)
    (graph : Option Term) : stack.changes.filter (fun change => change.editsGraph graph) =
      if stack.graph = graph then stack.changes else [] := by
  have hsame : ∀ change ∈ stack.changes, change.editsGraph graph = (stack.graph == graph) := by
    intro change hchange
    obtain ⟨c, hc, rfl⟩ := List.mem_map.mp hchange
    rw [← hown c (List.mem_reverse.mp hc)]
    rfl
  rw [List.filter_congr hsame]
  by_cases h : stack.graph = graph
  · simp [h]
  · simp [h]

/-- Of what lies on all stacks, a graph has what lies on its own. -/
theorem filter_flatMap_changes {unsettled : List GraphStack}
    (hdistinct : (unsettled.map GraphStack.graph).Nodup)
    (hown : ∀ stack ∈ unsettled, ∀ c ∈ stack.latest, c.graphTerm = stack.graph)
    (graph : Option Term) :
    (unsettled.flatMap GraphStack.changes).filter (fun change => change.editsGraph graph) =
      GraphStack.changes ⟨graph, latestIn graph unsettled⟩ := by
  induction unsettled with
  | nil => rfl
  | cons stack rest ih =>
      rw [List.map_cons, List.nodup_cons] at hdistinct
      obtain ⟨hstack, hrest⟩ := List.forall_mem_cons.mp hown
      rw [List.flatMap_cons, List.filter_append, filter_changes hstack, ih hdistinct.2 hrest,
        latestIn_cons]
      split
      · rename_i hgraph
        rw [latestIn_eq_nil (hgraph ▸ hdistinct.1), ← hgraph]
        exact List.append_nil _
      · exact List.nil_append _

theorem filter_regrouped (edits : List GraphEdit) (graph : Option Term) :
    ((regrouped edits).flatMap GraphStack.changes).filter
      (fun change => change.editsGraph graph) = (GraphStack.ofEdits edits graph).changes := by
  have hown : ∀ stack ∈ regrouped edits, ∀ c ∈ stack.latest, c.graphTerm = stack.graph := by
    intro stack hstack
    obtain ⟨graph', -, rfl⟩ := List.mem_map.mp hstack
    exact GraphStack.graphTerm_eq_of_mem_ofEdits
  rw [← pushAll_eq_regrouped] at hown ⊢
  rw [filter_flatMap_changes (nodup_graphs_pushAll edits) hown, latestIn_pushAll]
  rfl

theorem filter_listed (segment : Segment) (graph : Option Term) :
    segment.listed.filter (fun change => change.editsGraph graph) =
      (GraphStack.ofEdits segment.edits graph).changes := by
  have hclosing := Change.editsGraph_of_crossesGraphs segment.crosses graph
  rw [Segment.listed, List.filter_append, filter_regrouped, List.filter_cons, hclosing]
  exact List.append_nil _

/-- The edits of a graph to which a cut leads, segment by segment. -/
def editsFor (cut : Cut) (graph : Option Term) : List Change :=
  cut.segments.flatMap (fun segment => (GraphStack.ofEdits segment.edits graph).changes) ++
    (GraphStack.ofEdits cut.rest graph).changes

theorem filter_changes_ofCut (threadSafe : Bool) (cut : Cut) (graph : Option Term) :
    (ofCut threadSafe cut).changes.filter (fun change => change.editsGraph graph) =
      editsFor cut graph := by
  have hrest : (ofCut threadSafe cut).unsettledChanges =
      (regrouped cut.rest).flatMap GraphStack.changes := by
    rw [← pushAll_eq_regrouped]
    rfl
  rw [changes, hrest, List.filter_append, filter_regrouped, ofCut, List.filter_flatMap, editsFor]
  simp only [filter_listed]

theorem forGraph_ofCut (threadSafe : Bool) (cut : Cut) (graph : Option Term) :
    (ofCut threadSafe cut).forGraph graph = editsFor cut graph := by
  have hlatest : (ofCut threadSafe cut).latestFor graph =
      (GraphStack.ofEdits cut.rest graph).latest := latestIn_pushAll cut.rest graph
  rw [forGraph_eq, hlatest, ofCut, List.filter_flatMap, editsFor]
  simp only [filter_listed]
  rfl

/-- The edits of one graph are not influenced by those of the others. -/
theorem editsFor_onGraph (cut : Cut) (graph : Option Term) :
    editsFor (cut.onGraph graph) graph = editsFor cut graph := by
  rw [editsFor, Cut.onGraph, List.flatMap_map, GraphStack.ofEdits_filter]
  simp only [Segment.onGraph, GraphStack.ofEdits_filter]
  rfl

/-! ## What a log answers -/

/-- For a sequence of changes added to a new log, cut into segments: the log lists each
segment for itself, graph by graph, and then the stacks of the rest.  What is settled
are the segments.  The edits of a graph are those that are listed for it, and the same
as if the edits of the other graphs had not been added.  The log counts what it lists,
and draining hands this out and leaves a new log.  A log that keeps its stacks in a map
and sorts them by their numbers gives the same answers. -/
theorem listed_by_segments (threadSafe : Bool) (changes : List Change) :
    let cut := Cut.ofChanges (changes.filter fun change => !change.isEmpty)
    let log := (new threadSafe).addAll changes
    cut.changes = changes.filter (fun change => !change.isEmpty) ∧
      log.changes = cut.segments.flatMap Segment.listed ++
        (regrouped cut.rest).flatMap GraphStack.changes ∧
      log.settled = cut.segments.flatMap Segment.listed ∧
      (∀ graph, log.forGraph graph =
        log.changes.filter fun change => change.editsGraph graph) ∧
      (∀ graph, log.forGraph graph = ((new threadSafe).addAll
        (changes.filter fun change =>
          change.editsGraph graph || change.crossesGraphs)).forGraph graph) ∧
      log.size = log.changes.length ∧
      log.drain = (log.changes, new threadSafe) ∧
      ((NumberedLog.new threadSafe).addAll changes).AnswersAs log := by
  intro cut log
  have hlog : log = ofCut threadSafe cut := addAll_new threadSafe changes
  have hchanges : log.changes = cut.segments.flatMap Segment.listed ++
      (regrouped cut.rest).flatMap GraphStack.changes := by
    rw [hlog, ← pushAll_eq_regrouped]
    rfl
  refine ⟨Cut.changes_ofChanges _, hchanges, ?_, fun graph => ?_, fun graph => ?_,
    log.length_changes.symm, ?_, NumberedLog.answersAs_addAll threadSafe changes⟩
  · rw [hlog]
    rfl
  · rw [hlog, forGraph_ofCut, filter_changes_ofCut]
  · rw [hlog, forGraph_ofCut, addAll_new, forGraph_ofCut, List.filter_comm,
      Cut.ofChanges_filter, editsFor_onGraph]
  · rw [drain, hlog]
    rfl

end ChangeLog

end QuadSession

import Mathlib.Data.List.Chain
import Mathlib.Data.List.Induction
import QuadSession.ChangeLog.Command
import QuadSession.Proofs.Segments

/-!
# The normal form of a log

Whatever is done with a log, it lists no change that is empty and none that could be
folded into the change of the same graph before it.  Folding an edit into the top of a
stack changes the top, and if nothing is left of the two it brings the edit below to
light, so this has to be shown for neighbours that have never met before.

## Strategy

Whether an edit can be folded into an earlier one depends on the entity, the graph and
the kind of both.  What comes of a fold has all three from the earlier of the two
(`GraphEdit.absorbs_merged`), and can be folded into the edit below it no more than the
old top could.  An edit that comes to light has been a top before.  So each stack stays
reduced (`GraphStack.Reduced.push`).

What is settled ends with a change that crosses graphs, into which nothing can be
folded.  The settled changes of a graph and those on its stack can therefore be joined
(`ChangeLog.Reduced.isChain_filter`), for the list of all changes as well as when the
stacks are settled.  Changes of different graphs cannot be folded anyway, and a list is
free of foldable neighbours if it is so graph by graph (`Change.isChain_of_forall_graph`).

## Main definitions

* `Change.Apart`: the later change cannot be folded into the earlier one.
* `ChangeLog.Normal`: the log is in normal form.

## Main statements

* `ChangeLog.normal_run`: a log is in normal form after any operations.
-/

namespace QuadSession

/-! ## Folds keep the kind of an edit -/

theorem Edit.absorbs_merged {earlier later merged : Edit}
    (h : earlier.merge? later = some merged) (below : Edit) :
    below.absorbs merged = below.absorbs earlier := by
  cases earlier with
  | update removed added =>
      cases later with
      | update removed' added' =>
          cases h
          cases below <;> rfl
      | overwrite content => cases h
  | overwrite content =>
      cases later <;> cases h <;> cases below <;> rfl

/-- What comes of a fold can be folded into the edit below if the earlier one could. -/
theorem GraphEdit.absorbs_merged {earlier later merged : GraphEdit}
    (h : earlier.merge? later = some merged) (below : GraphEdit) :
    below.absorbs merged = below.absorbs earlier := by
  have hfold := foldsTo_of_merge? h
  have hentity : merged.entity = earlier.entity := hfold.entity_merged.trans hfold.entity_eq.symm
  have hgraph : merged.graphTerm = earlier.graphTerm :=
    hfold.graph_merged.trans hfold.graph_eq.symm
  rw [absorbs, absorbs, Edit.absorbs_merged hfold.merge?_eq, hentity, hgraph]

/-! ## Stacks -/

namespace GraphStack

variable {stack : GraphStack} {c : GraphEdit}

/-- The stack holds edits of its graph, none of them empty, and none could be folded into
the one before it. -/
structure Reduced (stack : GraphStack) : Prop where
  own : ∀ c ∈ stack.latest, c.graphTerm = stack.graph
  not_isEmpty : ∀ c ∈ stack.latest, c.isEmpty = false
  apart : stack.latest.IsChain fun later earlier => earlier.absorbs later = false

theorem reduced_nil (graph : Option Term) : Reduced ⟨graph, []⟩ where
  own _ hc := absurd hc List.not_mem_nil
  not_isEmpty _ hc := absurd hc List.not_mem_nil
  apart := List.isChain_nil

theorem reduced_singleton (hc : c.isEmpty = false) : Reduced ⟨c.graphTerm, [c]⟩ where
  own := List.forall_mem_singleton.mpr rfl
  not_isEmpty := List.forall_mem_singleton.mpr hc
  apart := List.isChain_singleton c

theorem isChain_push {latest : List GraphEdit}
    (h : latest.IsChain fun later earlier => earlier.absorbs later = false) :
    (push latest c).IsChain fun later earlier => earlier.absorbs later = false := by
  cases latest with
  | nil => exact List.isChain_singleton c
  | cons top below =>
      cases hmerge : top.merge? c with
      | none =>
          rw [push_of_merge?_eq_none hmerge, List.isChain_cons_cons]
          refine ⟨?_, h⟩
          rw [← GraphEdit.isSome_merge?, hmerge]
          rfl
      | some merged =>
          rw [push_of_merge? hmerge]
          split
          · exact h.tail
          · -- the new top meets the edit that the old one has met
            refine List.IsChain.imp_head (fun {next} hnext => ?_) h
            exact (GraphEdit.absorbs_merged hmerge next).trans hnext

theorem Reduced.push (h : stack.Reduced) (hc : c.isEmpty = false)
    (hgraph : stack.graph = c.graphTerm) :
    Reduced { stack with latest := push stack.latest c } where
  own := forall_mem_push h.own hgraph.symm fun _ _ _ hmerge _ =>
    (GraphEdit.foldsTo_of_merge? hmerge).graph_merged.trans hgraph.symm
  not_isEmpty := forall_mem_push h.not_isEmpty hc fun _ _ _ _ hmerged => hmerged
  apart := isChain_push h.apart

end GraphStack

/-! ## Neighbours in a list of changes -/

namespace Change

variable {earlier later change : Change} {changes : List Change} {graph : Option Term}

/-- The later change cannot be folded into the earlier one. -/
def Apart (earlier later : Change) : Prop :=
  earlier.absorbs later = false

/-- Whether the change is an edit of the graph or crosses graphs. -/
def reaches (change : Change) (graph : Option Term) : Bool :=
  change.editsGraph graph || change.crossesGraphs

theorem isEmpty_of_crossesGraphs (h : change.crossesGraphs = true) : change.isEmpty = false := by
  cases change with
  | inGraph c => cases h
  | dropEntity e => rfl
  | dropReferences e => rfl

theorem apart_of_crossesGraphs_left (h : earlier.crossesGraphs = true) : earlier.Apart later := by
  cases earlier with
  | inGraph c => cases h
  | dropEntity e => rfl
  | dropReferences e => rfl

theorem apart_of_crossesGraphs_right (h : later.crossesGraphs = true) : earlier.Apart later := by
  cases later with
  | inGraph c => cases h
  | dropEntity e => cases earlier <;> rfl
  | dropReferences e => cases earlier <;> rfl

/-- A change that crosses graphs reaches every graph. -/
theorem filter_reaches_append (h : change.crossesGraphs = true) :
    ((changes ++ [change]).filter fun change => change.reaches graph) =
      (changes.filter fun change => change.reaches graph) ++ [change] := by
  have hreaches : change.reaches graph = true := by rw [reaches, h, Bool.or_true]
  have hkept : [change].filter (fun change => change.reaches graph) = [change] :=
    List.filter_eq_self.mpr (List.forall_mem_singleton.mpr hreaches)
  rw [List.filter_append, hkept]

/-- Only edits of one graph are folded into each other. -/
theorem exists_editsGraph_of_absorbs (h : earlier.absorbs later = true) :
    ∃ graph, earlier.editsGraph graph = true ∧ later.editsGraph graph = true := by
  cases earlier with
  | inGraph c =>
      cases later with
      | inGraph c' =>
          simp only [absorbs, GraphEdit.absorbs, Bool.and_eq_true] at h
          exact ⟨c'.graphTerm, h.2, beq_self_eq_true _⟩
      | dropEntity e => cases h
      | dropReferences e => cases h
  | dropEntity e => cases h
  | dropReferences e => cases h

/-- Changes next to each other can be told apart graph by graph. -/
theorem isChain_of_forall_graph
    (h : ∀ graph, (changes.filter fun change => change.reaches graph).IsChain Apart) :
    changes.IsChain Apart := by
  induction changes with
  | nil => exact List.isChain_nil
  | cons change rest ih =>
      rw [List.isChain_cons]
      constructor
      · intro next hnext
        by_contra hfolds
        obtain ⟨graph, hchange, hnext'⟩ :=
          exists_editsGraph_of_absorbs (Bool.not_eq_false _ ▸ hfolds)
        obtain ⟨tail, rfl⟩ := List.head?_eq_some_iff.mp hnext
        have hgraph := h graph
        rw [List.filter_cons_of_pos (by simp [reaches, hchange]),
          List.filter_cons_of_pos (by simp [reaches, hnext']), List.isChain_cons_cons] at hgraph
        exact hfolds hgraph.1
      · refine ih fun graph => ?_
        have hgraph := h graph
        rw [List.filter_cons] at hgraph
        split at hgraph
        · exact hgraph.tail
        · exact hgraph

end Change

namespace ChangeLog

/-! ## Logs -/

variable {log : ChangeLog} {c : GraphEdit} {change : Change}

/-- No listed change is empty or could be folded into its predecessor, be it in the list
of all changes, or in that of the edits of a graph and the changes that cross graphs.  On
the stack of a graph lie edits of this graph. -/
structure Normal (log : ChangeLog) : Prop where
  not_isEmpty : ∀ change ∈ log.changes, change.isEmpty = false
  apart : log.changes.IsChain Change.Apart
  apart_in : ∀ graph, (log.changes.filter fun change => change.reaches graph).IsChain Change.Apart
  own : ∀ stack ∈ log.unsettled, ∀ c ∈ stack.latest, c.graphTerm = stack.graph

/-- Each graph has one reduced stack, and what is settled is in normal form and ends with
a change that crosses graphs. -/
structure Reduced (log : ChangeLog) : Prop where
  distinct : (log.unsettled.map GraphStack.graph).Nodup
  reduced : ∀ stack ∈ log.unsettled, stack.Reduced
  settled_not_isEmpty : ∀ change ∈ log.settled, change.isEmpty = false
  settled_apart : ∀ graph,
    (log.settled.filter fun change => change.reaches graph).IsChain Change.Apart
  settled_closed : ∀ change ∈ log.settled.getLast?, change.crossesGraphs = true

/-- Switching the mode leaves the log as it is or starts a new one. -/
theorem eq_or_eq_new_of_setThreadSafe {threadSafe : Bool} {switched : ChangeLog}
    (h : log.setThreadSafe threadSafe = .ok switched) :
    switched = log ∨ switched = new threadSafe := by
  unfold setThreadSafe at h
  split at h
  · cases h
    exact .inl rfl
  · split at h
    · cases h
      exact .inr rfl
    · cases h

theorem reduced_new (threadSafe : Bool) : (new threadSafe).Reduced where
  distinct := List.nodup_nil
  reduced _ hstack := absurd hstack List.not_mem_nil
  settled_not_isEmpty _ hchange := absurd hchange List.not_mem_nil
  settled_apart _ := List.isChain_nil
  settled_closed _ hchange := absurd hchange (Option.not_mem_none _)

namespace Reduced

theorem latestFor (h : log.Reduced) (graph : Option Term) :
    GraphStack.Reduced ⟨graph, log.latestFor graph⟩ := by
  rcases latestIn_eq_nil_or_mem graph log.unsettled with hnil | ⟨stack, hstack, rfl, heq⟩
  · rw [ChangeLog.latestFor, hnil]
    exact GraphStack.reduced_nil graph
  · rw [ChangeLog.latestFor, heq]
    exact h.reduced stack hstack

/-- Of what is not settled, a graph is reached by what lies on its stack. -/
theorem filter_unsettledChanges (h : log.Reduced) (graph : Option Term) :
    log.unsettledChanges.filter (fun change => change.reaches graph) =
      GraphStack.changes ⟨graph, log.latestFor graph⟩ := by
  have hreaches : ∀ change ∈ log.unsettledChanges,
      change.reaches graph = change.editsGraph graph := by
    intro change hchange
    obtain ⟨stack, -, hchange⟩ := List.mem_flatMap.mp hchange
    obtain ⟨c, -, rfl⟩ := List.mem_map.mp hchange
    exact Bool.or_false _
  rw [List.filter_congr hreaches]
  exact filter_flatMap_changes h.distinct (fun stack hstack => (h.reduced stack hstack).own) graph

/-- The settled changes that reach a graph end with one that crosses graphs. -/
theorem closed_filter (h : log.Reduced) (graph : Option Term) :
    ∀ change ∈ (log.settled.filter fun change => change.reaches graph).getLast?,
      change.crossesGraphs = true := by
  rcases List.eq_nil_or_concat' log.settled with hnil | ⟨before, last, hsettled⟩
  · rw [hnil]
    exact fun change hchange => absurd hchange (Option.not_mem_none _)
  · have hlast : last.crossesGraphs = true :=
      h.settled_closed last (by rw [hsettled, List.getLast?_concat]; rfl)
    rw [hsettled, Change.filter_reaches_append hlast, List.getLast?_concat]
    rintro change ⟨⟩
    exact hlast

/-- The settled changes of a graph and those on its stack can be joined. -/
theorem isChain_filter (h : log.Reduced) (graph : Option Term) :
    (log.changes.filter fun change => change.reaches graph).IsChain Change.Apart := by
  rw [changes, List.filter_append, h.filter_unsettledChanges]
  refine (h.settled_apart graph).append ?_ fun earlier hearlier later _ =>
    Change.apart_of_crossesGraphs_left (h.closed_filter graph earlier hearlier)
  rw [GraphStack.changes, List.isChain_map, List.isChain_reverse]
  exact (h.latestFor graph).apart

theorem isEmpty_eq_false (h : log.Reduced) : ∀ change ∈ log.changes, change.isEmpty = false := by
  intro change hchange
  rcases List.mem_append.mp hchange with hsettled | hunsettled
  · exact h.settled_not_isEmpty change hsettled
  · obtain ⟨stack, hstack, hin⟩ := List.mem_flatMap.mp hunsettled
    obtain ⟨c, hc, rfl⟩ := List.mem_map.mp hin
    exact (h.reduced stack hstack).not_isEmpty c (List.mem_reverse.mp hc)

theorem normal (h : log.Reduced) : log.Normal where
  not_isEmpty := h.isEmpty_eq_false
  apart := Change.isChain_of_forall_graph h.isChain_filter
  apart_in := h.isChain_filter
  own stack hstack := (h.reduced stack hstack).own

/-! ### Operations -/

theorem add_inGraph (h : log.Reduced) (hc : c.isEmpty = false) :
    (log.add (.inGraph c)).Reduced := by
  rw [ChangeLog.add_inGraph log hc]
  constructor
  · exact nodup_graphs_pushOnStack h.distinct
  · exact forall_mem_pushOnStack h.reduced (GraphStack.reduced_singleton hc)
      fun _ hstack hgraph => hstack.push hc hgraph
  · exact h.settled_not_isEmpty
  · exact h.settled_apart
  · exact h.settled_closed

theorem add_of_crossesGraphs (h : log.Reduced) (hcrosses : change.crossesGraphs = true) :
    (log.add change).Reduced := by
  rw [ChangeLog.add_of_crossesGraphs log hcrosses]
  constructor
  · exact List.nodup_nil
  · exact fun stack hstack => absurd hstack List.not_mem_nil
  · exact List.forall_mem_append.mpr
      ⟨h.isEmpty_eq_false, List.forall_mem_singleton.mpr (Change.isEmpty_of_crossesGraphs hcrosses)⟩
  · intro graph
    rw [Change.filter_reaches_append hcrosses]
    refine (h.isChain_filter graph).append (List.isChain_singleton _) fun earlier _ later hlater =>
      ?_
    rw [List.head?_cons, Option.mem_some_iff] at hlater
    exact Change.apart_of_crossesGraphs_right (hlater ▸ hcrosses)
  · intro last hlast
    rw [List.getLast?_concat, Option.mem_some_iff] at hlast
    exact hlast ▸ hcrosses

theorem step (h : log.Reduced) (operation : Operation) : (log.step operation).Reduced := by
  cases operation with
  | add change =>
      show (log.add change).Reduced
      cases hempty : change.isEmpty with
      | true => rwa [add_of_isEmpty log hempty]
      | false =>
          cases hcrosses : change.crossesGraphs with
          | true => exact h.add_of_crossesGraphs hcrosses
          | false =>
              obtain ⟨c, rfl⟩ := Change.exists_eq_inGraph hcrosses
              exact h.add_inGraph hempty
  | drain => exact reduced_new log.threadSafe
  | clear => exact reduced_new log.threadSafe
  | setThreadSafe threadSafe =>
      simp only [ChangeLog.step]
      split
      · rename_i switched hswitch
        rcases eq_or_eq_new_of_setThreadSafe hswitch with rfl | rfl
        · exact h
        · exact reduced_new threadSafe
      · exact h

theorem run (h : log.Reduced) (operations : List Operation) : (log.run operations).Reduced := by
  induction operations generalizing log with
  | nil => exact h
  | cons operation rest ih => exact ih (h.step operation)

end Reduced

/-- After any operations on a new log, none of the listed changes is empty, and none can be
folded into the one before it.  This is so even if only the edits of one graph are
compared, as long as no change that crosses graphs lies between them.  The stack of a
graph holds edits of this graph only. -/
theorem normal_run (threadSafe : Bool) (operations : List Operation) :
    ((new threadSafe).run operations).Normal :=
  ((reduced_new threadSafe).run operations).normal

open Sample in
/-- The edits of the friend cancel out, and the next edit of the person is folded into the
one that lay below them. -/
example :
    let moved := Quads.ofList [fact (.iri person) livesAt (.blank address)]
    let met := Quads.ofList [fact (.iri person) knows (.iri friend)]
    let log := (new false).run [.add (.inGraph ⟨.iri person, none, .update ∅ moved⟩),
      .add (.inGraph ⟨.iri friend, none, .update ∅ met⟩),
      .add (.inGraph ⟨.iri friend, none, .update met ∅⟩),
      .add (.inGraph ⟨.iri person, none, .update ∅ met⟩)]
    log.changes.length = 1 := by
  decide

end ChangeLog

end QuadSession

import QuadSession.Proofs.Faithful
import QuadSession.Proofs.NormalForm

/-!
# Edits that stay inside their graph

The edits of a graph can only be regrouped and carried out apart from those of the other
graphs if they name no quad of another graph.  This file proves that no history of a
session logs an edit that does, and that a session that does not track its changes has
nothing in its log at all.

## Strategy

Quads reach an edit from the values that were selected, from new values, from a cascade
across graphs or from the content of a graph.  Whichever way they come, `editOf` sorts
them by graph before it makes an edit of them (`editOf_liesIn`).  Two edits are folded
into one only if they are of the same graph, so a fold names no quad of another graph
either.

What an operation can do to the log is said once, by `Session.Logging`: the log stays as
it is, it starts anew, or changes are added that stay inside their graphs, which takes a
session that tracks its changes.

## Main definitions

* `Change.StaysInside`: the change names no quad of another graph.
* `Session.Logging`: what becomes of the log in a step.

## Main statements

* `Session.logging_of_perform`: every permitted operation does one of the three.
* `Session.recorded_inside`: the edits that are logged in a run stay inside their graphs.
-/

namespace QuadSession

/-! ## Changes and logs -/

/-- The quads of an edit lie in the graph that it edits.  A change that reaches into every
graph names no quads. -/
def Change.StaysInside : Change → Prop
  | inGraph c => c.edit.LiesIn c.graphTerm
  | dropEntity _ => True
  | dropReferences _ => True

theorem GraphEdit.liesIn_of_merge? {earlier later merged : GraphEdit}
    (hmerge : earlier.merge? later = some merged)
    (hearlier : earlier.edit.LiesIn earlier.graphTerm)
    (hlater : later.edit.LiesIn later.graphTerm) : merged.edit.LiesIn merged.graphTerm := by
  have hfold := foldsTo_of_merge? hmerge
  have hsame : earlier.edit.LiesIn later.graphTerm := hfold.graph_eq ▸ hearlier
  rw [hfold.graph_merged]
  exact hsame.merge? hlater hfold.merge?_eq

namespace ChangeLog

variable {log : ChangeLog} {change : Change} {changes : List Change}

/-- All that is logged stays inside its graph. -/
structure Confined (log : ChangeLog) : Prop where
  settled : ∀ change ∈ log.settled, change.StaysInside
  unsettled : ∀ stack ∈ log.unsettled, ∀ c ∈ stack.latest, c.edit.LiesIn c.graphTerm

theorem confined_new (threadSafe : Bool) : (new threadSafe).Confined where
  settled _ hchange := absurd hchange List.not_mem_nil
  unsettled _ hstack := absurd hstack List.not_mem_nil

namespace Confined

theorem staysInside (h : log.Confined) : ∀ change ∈ log.changes, change.StaysInside := by
  intro change hchange
  rcases List.mem_append.mp hchange with hsettled | hunsettled
  · exact h.settled change hsettled
  · obtain ⟨stack, hstack, hin⟩ := List.mem_flatMap.mp hunsettled
    obtain ⟨c, hc, rfl⟩ := List.mem_map.mp hin
    exact h.unsettled stack hstack c (List.mem_reverse.mp hc)

theorem add (h : log.Confined) (hchange : change.StaysInside) : (log.add change).Confined := by
  cases hempty : change.isEmpty with
  | true => rwa [add_of_isEmpty log hempty]
  | false =>
      cases hcrosses : change.crossesGraphs with
      | true =>
          rw [add_of_crossesGraphs log hcrosses]
          constructor
          · exact List.forall_mem_append.mpr
              ⟨h.staysInside, List.forall_mem_singleton.mpr hchange⟩
          · exact fun _ hstack => absurd hstack List.not_mem_nil
      | false =>
          obtain ⟨c, rfl⟩ := Change.exists_eq_inGraph hcrosses
          rw [add_inGraph log hempty]
          constructor
          · exact h.settled
          · exact forall_mem_pushOnStack h.unsettled (List.forall_mem_singleton.mpr hchange)
              fun _ hstack _ => GraphStack.forall_mem_push hstack hchange
                fun _ _ htop hmerge _ => GraphEdit.liesIn_of_merge? hmerge htop hchange

theorem addAll (h : log.Confined) (hchanges : ∀ change ∈ changes, change.StaysInside) :
    (log.addAll changes).Confined := by
  induction changes generalizing log with
  | nil => exact h
  | cons change rest ih =>
      obtain ⟨hchange, hrest⟩ := List.forall_mem_cons.mp hchanges
      exact ih (h.add hchange) hrest

end Confined

end ChangeLog

/-! ## What a mutation logs -/

theorem staysInside_of_mem_editsOf {d : Dataset} {e : Entity} {lost gained : List Quad} :
    ∀ change ∈ Session.editsOf d e lost gained, change.StaysInside := by
  intro change hchange
  rw [editsOf_eq] at hchange
  obtain ⟨c, hc, rfl⟩ := List.mem_map.mp hchange
  show c.edit.LiesIn c.graphTerm
  rw [(of_mem_graphEdits hc).2]
  exact editOf_liesIn

theorem staysInside_of_mem_deletionOf {d : Dataset} {e : Entity} {policy : DeletePolicy}
    {lost : List Quad} : ∀ change ∈ Session.deletionOf d e policy lost, change.StaysInside := by
  have hdrops : ∀ change ∈ dropsOf e policy, change.StaysInside := by
    unfold dropsOf
    cases e.isBlank <;> cases policy.nullifyReferences <;> simp [Change.StaysInside]
  rw [deletionOf_eq]
  exact List.forall_mem_append.mpr ⟨staysInside_of_mem_editsOf, hdrops⟩

namespace Session

variable {s t : Session} {command : Command}

/-! ## What a step does to the log -/

/-- The log stays as it is, starts anew, or takes in changes that stay inside their
graphs.  Only a session that tracks its changes takes any in. -/
inductive Logging (s t : Session) : Prop where
  | kept (tracking_eq : t.isTracking = s.isTracking) (log_eq : t.log = s.log)
  | renewed (threadSafe : Bool) (log_eq : t.log = .new threadSafe)
  | extended (tracking : t.isTracking = true) (changes : List Change)
      (inside : ∀ change ∈ changes, change.StaysInside) (log_eq : t.log = s.log.addAll changes)

/-- A mutation logs its changes if they are tracked. -/
theorem Logging.of_mutation {changes : List Change} (htracking : t.isTracking = s.isTracking)
    (hlog : t.log = if s.isTracking then s.log.addAll changes else s.log)
    (hchanges : ∀ change ∈ changes, change.StaysInside) : Logging s t := by
  cases h : s.isTracking with
  | true =>
      rw [h, if_pos rfl] at hlog
      exact .extended (htracking.trans h) changes hchanges hlog
  | false =>
      rw [h, if_neg Bool.false_ne_true] at hlog
      exact .kept htracking hlog

theorem logging_loaded (s : Session) (e : Entity) (quads : List Quad) :
    Logging s (s.loaded e quads) := by
  unfold loaded
  split
  · exact .kept rfl rfl
  · exact .kept Option.isSome_map rfl

theorem logging_of_perform (ht : s.perform command = .ok t) : Logging s t := by
  cases command with
  | load e quads =>
      obtain ⟨-, rfl⟩ := load_eq_ok.mp ht
      exact logging_loaded s e quads
  | replace e predicate values graph locale =>
      obtain ⟨-, p, -, rfl⟩ := replace_eq_ok.mp ht
      rw [replaced_eq]
      exact .of_mutation rfl rfl staysInside_of_mem_editsOf
  | delete e policy =>
      obtain ⟨-, rfl⟩ := delete_eq_ok.mp ht
      rw [deleted_eq]
      exact .of_mutation rfl rfl staysInside_of_mem_deletionOf
  | reset =>
      obtain ⟨-, rfl⟩ := reset_eq_ok.mp ht
      exact .renewed _ rfl
  | rollback =>
      obtain ⟨-, b, -, rfl⟩ := rollback_eq_ok.mp ht
      exact .renewed _ rfl
  | takeChanges =>
      cases ht
      exact .renewed _ rfl
  | setThreadSafe threadSafe =>
      obtain ⟨-, ⟨-, rfl⟩ | ⟨-, -, log, hlog, rfl⟩⟩ := setThreadSafe_eq_ok.mp ht
      · exact .kept rfl rfl
      · rcases ChangeLog.eq_or_eq_new_of_setThreadSafe hlog with rfl | rfl
        · exact .kept Option.isSome_map rfl
        · exact .renewed _ rfl
  | setTracking tracking =>
      obtain ⟨-, rfl | ⟨-, rfl⟩⟩ := setTracking_eq_ok ht
      · exact .kept rfl rfl
      · exact .renewed _ rfl
  | dispose =>
      cases ht
      unfold dispose
      split
      · exact .kept rfl rfl
      · exact .renewed _ rfl

theorem logging_step (s : Session) (command : Command) : Logging s (s.step command) := by
  cases hperform : s.perform command with
  | error refusal =>
      rw [step_eq_of_refused hperform]
      exact .kept rfl rfl
  | ok t =>
      rw [step_eq_of_perform hperform]
      exact logging_of_perform hperform

/-! ## Runs -/

/-- The log stays inside the graphs, and it is empty unless changes are tracked. -/
structure LogsInside (s : Session) : Prop where
  confined : s.log.Confined
  changes_eq_nil : s.isTracking = false → s.changes = []

theorem logsInside_start (options : Options) : (start options).LogsInside where
  confined := ChangeLog.confined_new _
  changes_eq_nil _ := rfl

theorem LogsInside.of_logging (h : s.LogsInside) (hlogging : Logging s t) : t.LogsInside := by
  cases hlogging with
  | kept htracking hlog =>
      refine ⟨hlog ▸ h.confined, fun huntracked => ?_⟩
      rw [changes, hlog]
      exact h.changes_eq_nil (htracking.symm.trans huntracked)
  | renewed threadSafe hlog =>
      refine ⟨hlog ▸ ChangeLog.confined_new threadSafe, fun _ => ?_⟩
      rw [changes, hlog]
      rfl
  | extended htracking changes hinside hlog =>
      refine ⟨hlog ▸ h.confined.addAll hinside, fun huntracked => ?_⟩
      exact Bool.noConfusion (huntracked.symm.trans htracking)

theorem LogsInside.run (h : s.LogsInside) (commands : List Command) :
    (s.run commands).LogsInside := by
  induction commands generalizing s with
  | nil => exact h
  | cons command rest ih => exact ih (h.of_logging (logging_step s command))

/-- After any history of a session, whatever its options, each edit that is logged takes
away, adds and states only quads of the graph that it edits.  While the session does not
track its changes, nothing is logged. -/
theorem recorded_inside (options : Options) (commands : List Command) :
    let s := (start options).run commands
    (∀ c, .inGraph c ∈ s.changes → c.edit.LiesIn c.graphTerm) ∧
      (s.isTracking = false → s.changes = []) := by
  intro s
  have h : s.LogsInside := (logsInside_start options).run commands
  exact ⟨fun c hc => h.confined.staysInside (.inGraph c) hc, h.changes_eq_nil⟩

open Sample in
/-- A person comes to know a friend, in a graph of the person.  One session tracks this and
one does not. -/
theorem recorded_inside_person :
    let graph := Node.ofTerm (.iri person)
    let commands := [.replace (.iri person) (.ofTerm (.iri knows)) [.ofTerm (.iri friend)]
      (some graph) none]
    let s := (start {}).run commands
    let t := (start { tracking := false }).run commands
    (∃ c, .inGraph c ∈ s.changes ∧ c.edit.LiesIn c.graphTerm) ∧
      t.isTracking = false ∧ t.changes = [] := by
  intro graph commands s t
  have hs : s = _ := run_replace_eq (p := ⟨.ofTerm (.iri knows), rfl⟩) rfl (by decide) []
  have ht : t = _ := run_replace_eq (p := ⟨.ofTerm (.iri knows), rfl⟩) rfl (by decide) []
  have hedited : s.changes.any (fun change => !change.crossesGraphs) = true := by
    rw [hs]
    decide +kernel
  obtain ⟨change, hlogged, hedit⟩ := List.any_eq_true.mp hedited
  obtain ⟨c, rfl⟩ := Change.exists_eq_inGraph ((Bool.not_eq_true' _).mp hedit)
  have huntracked : t.isTracking = false := by
    rw [ht]
    rfl
  exact ⟨⟨c, hlogged, (recorded_inside {} commands).1 c hlogged⟩, huntracked,
    (recorded_inside { tracking := false } commands).2 huntracked⟩

end Session

end QuadSession

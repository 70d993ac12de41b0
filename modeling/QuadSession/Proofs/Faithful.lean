import QuadSession.Proofs.Recording

/-!
# When the log tells the whole truth

The logged changes are meant to turn what a session was reset to into what it
holds.  They do so step by step until a mutation takes the last quads out of a
graph and the stack of the graph misses it.  This file says exactly when that
happens and proves that nothing else goes wrong: after a reset, the log stays
faithful through a run of replacements and deletions if and only if no step of the
run loses anything.

## Strategy

`Session.Recorded` says for every graph that its stack tells what the session
holds.  A step that loses nothing keeps it (`Session.Recorded.step`), and after a
step that does, the replayed log claims a quad that the session does not hold
(`Session.Recorded.not_faithful_step`).

A deletion also logs changes for every graph.  These settle the order of what was
logged before, and they may take back what an overwrite had covered, so the loss
of a deletion depends on the quads below the overwrite.

## Main statements

* `Session.faithful_run_iff`: the log is faithful through a run if and only if
  no step loses anything.
* `Session.not_faithful_address`: two replacements in one graph that lose its
  emptying.
-/

namespace QuadSession

/-! ## The record of a deletion -/

theorem contains_filter_blankIn {lost : List Quad} {q : Quad} :
    (lost.filter fun x => Session.blankIn lost x.graphTerm).contains q = true ↔
      lost.contains q = true ∧ Session.blankIn lost q.graphTerm = true := by
  rw [Quads.contains_filter_list fun a b hab => by rw [Quad.graphTerm_eq_of_beq hab],
    Bool.and_eq_true]

/-- A deletion records a graph only if a quad with a blank node was lost in it, and
then all that was lost in it. -/
theorem editOf_filter_blankIn {d : Dataset} {lost gained : List Quad} {graph : Option Term}
    (h : Session.blankIn lost graph = true) :
    Session.editOf d (lost.filter fun q => Session.blankIn lost q.graphTerm) gained graph =
      Session.editOf d lost gained graph := by
  have hinGraph : Session.inGraph graph
      (lost.filter fun q => Session.blankIn lost q.graphTerm) = Session.inGraph graph lost := by
    unfold Session.inGraph
    rw [List.filter_filter]
    refine List.filter_congr fun q _ => ?_
    by_cases hq : q.graphTerm = graph
    · rw [hq, h, Bool.and_true]
    · rw [beq_eq_false_iff_ne.mpr hq, Bool.false_and]
  have hblank : Session.blankIn (lost.filter fun q => Session.blankIn lost q.graphTerm) graph =
      Session.blankIn lost graph := by
    rw [h, blankIn_iff]
    obtain ⟨q, hq, hinvolves, rfl⟩ := blankIn_iff.mp h
    exact ⟨q, contains_filter_blankIn.mpr ⟨hq, h⟩, hinvolves, rfl⟩
  rw [Session.editOf, Session.editOf, hinGraph, hblank]

/-- The changes of a deletion that reach into every graph. -/
def dropsOf (e : Entity) (policy : DeletePolicy) : List Change :=
  if e.isBlank then []
  else .dropEntity e :: if policy.nullifyReferences then [.dropReferences e] else []

theorem deletionOf_eq (d : Dataset) (e : Entity) (policy : DeletePolicy) (lost : List Quad) :
    Session.deletionOf d e policy lost =
      Session.editsOf d e (lost.filter fun q => Session.blankIn lost q.graphTerm) [] ++
        dropsOf e policy := rfl

theorem contains_replay_dropsOf (e : Entity) (policy : DeletePolicy) (s : Quads) (q : Quad) :
    (Change.replay (dropsOf e policy) s).contains q = true ↔
      s.contains q = true ∧ ¬ Session.Drops e policy q := by
  unfold dropsOf Session.Drops
  cases e.isBlank <;> cases policy.nullifyReferences <;>
    simp [Change.replay, Change.contains_apply_dropEntity, Change.contains_apply_dropReferences,
      and_assoc]

namespace ChangeLog

variable {log : ChangeLog} {e : Entity} {policy : DeletePolicy}

theorem addAll_append (log : ChangeLog) (first second : List Change) :
    log.addAll (first ++ second) = (log.addAll first).addAll second :=
  List.foldl_append

theorem changes_addAll_dropsOf (log : ChangeLog) (e : Entity) (policy : DeletePolicy) :
    (log.addAll (dropsOf e policy)).changes = log.changes ++ dropsOf e policy := by
  unfold dropsOf
  cases e.isBlank <;> cases policy.nullifyReferences <;>
    simp [addAll, add, Change.isEmpty, changes, unsettledChanges]

/-- The changes for every graph leave no edit unsettled. -/
theorem unsettled_addAll_dropsOf (log : ChangeLog) (he : e.isBlank = false) :
    (log.addAll (dropsOf e policy)).unsettled = [] := by
  unfold dropsOf
  cases policy.nullifyReferences <;> simp [he, addAll, add, Change.isEmpty]

end ChangeLog

/-! ## Sessions whose log tells the truth -/

namespace Session

variable {q₀ : Quads} {s : Session}

/-- Replaying the log on the quads of the last reset yields what the session
holds. -/
def Faithful (q₀ : Quads) (s : Session) : Prop :=
  ∀ q : Quad, (Change.replay s.changes q₀).contains q = s.contents.quads.contains q

/-- The deletion clears the graph of the quad, and the edit that records this is
folded into an overwrite which had covered the quad. -/
structure Uncovers (q₀ : Quads) (s : Session) (e : Entity) (policy : DeletePolicy) (q : Quad) :
    Prop where
  clears : (s.deletion e policy).Clears q.graphTerm
  blank : blankIn (s.deletion e policy).lost q.graphTerm = true
  overwritten : ∃ content,
    GraphStack.target e (s.log.latestFor q.graphTerm) = some (.overwrite content)
  covered : (GraphStack.result (Change.replay s.log.settled q₀)
    (s.log.latestFor q.graphTerm).tail).contains q = true

/-- The step clears a graph, and the log misses it. -/
inductive Loses (q₀ : Quads) (s : Session) : Command → Prop where
  /-- The record of a replacement is folded into an overwrite, or it adds quads that
  are gone again. -/
  | replacing {e : Entity} {predicate : Node} {p : Predicate} {values : List Node}
      {graph : Option Node} {locale : Option Locale} {cleared : Option Term}
      (admitted : s.admitReplace predicate = .ok p)
      (clears : (s.replacement e p values graph locale).Clears cleared)
      (misses : GraphStack.Misses e cleared (s.replacement e p values graph locale).gained
        (s.log.latestFor cleared)) :
      Loses q₀ s (.replace e predicate values graph locale)
  /-- A deletion uncovers a quad that the changes for every graph do not drop. -/
  | deleting {e : Entity} {policy : DeletePolicy} {q : Quad} (live : s.closed = false)
      (uncovers : s.Uncovers q₀ e policy q) (kept : ¬ Drops e policy q) :
      Loses q₀ s (.delete e policy)

/-- The stack of every graph tells what the session holds in the graph. -/
structure Recorded (q₀ : Quads) (s : Session) : Prop where
  consistent : s.Consistent
  live : s.closed = false
  tracking : s.isTracking = true
  tidy : s.log.Tidy
  tells : ∀ graph, GraphStack.Tells graph (Change.replay s.log.settled q₀)
    (s.log.latestFor graph) s.contents.quads

theorem Recorded.faithful (h : s.Recorded q₀) : s.Faithful q₀ := by
  intro q
  rw [changes, h.tidy.contains_replay_changes]
  exact (h.tells q.graphTerm).agrees q rfl

/-- Where all edits are settled, it is enough that the log is faithful. -/
theorem recorded_of_faithful (hconsistent : s.Consistent) (hlive : s.closed = false)
    (htracking : s.isTracking = true) (hunsettled : s.log.unsettled = [])
    (hfaithful : s.Faithful q₀) : s.Recorded q₀ := by
  have htidy := ChangeLog.tidy_of_unsettled_eq_nil hunsettled
  have hlatest : ∀ graph, s.log.latestFor graph = [] := by
    intro graph
    rw [ChangeLog.latestFor, hunsettled, latestIn_nil]
  refine ⟨hconsistent, hlive, htracking, htidy, fun graph => ?_⟩
  rw [hlatest graph]
  refine ⟨List.forall_mem_nil _, trivial, trivial, fun q hq => ?_⟩
  rw [← hfaithful q, changes, htidy.contains_replay_changes, hlatest]

theorem recorded_reset {t : Session} (h : s.Consistent) (htracking : s.isTracking = true)
    (ht : s.reset = .ok t) : t.Recorded t.contents.quads.primary := by
  have hconsistent : t.Consistent := h.perform .reset ht
  obtain ⟨hlive, rfl⟩ := reset_eq_ok.mp ht
  refine recorded_of_faithful hconsistent hlive ?_ rfl fun q => rfl
  rw [isTracking, Option.isSome_map]
  exact htracking

/-! ## Replacements -/

section

variable {e : Entity} {p : Predicate} {values : List Node} {graph : Option Node}
  {locale : Option Locale}

theorem Recorded.logged_replaced (h : s.Recorded q₀) (e : Entity) (p : Predicate)
    (values : List Node) (graph : Option Node) (locale : Option Locale) :
    s.log.Logged (graphEdits (s.replacement e p values graph locale).after.quads e
      (s.replacement e p values graph locale).lost
      (s.replacement e p values graph locale).gained)
      (s.replaced e p values graph locale).log := by
  rw [replaced_eq, h.tracking, if_pos rfl]
  exact h.tidy.logged_editsOf _ _ _ _

theorem Recorded.replaced (h : s.Recorded q₀)
    (hkept : ∀ cleared, (s.replacement e p values graph locale).Clears cleared →
      ¬ GraphStack.Misses e cleared (s.replacement e p values graph locale).gained
        (s.log.latestFor cleared)) :
    (s.replaced e p values graph locale).Recorded q₀ := by
  have hm := accounts_replacement h.consistent.contents e p values graph locale
  have hlogged := h.logged_replaced e p values graph locale
  refine ⟨h.consistent.replaced e p values graph locale, h.live, h.tracking, hlogged.tidy, ?_⟩
  intro g
  rw [hlogged.settled_eq]
  exact hm.tells_logged hlogged (h.tells g) (hkept g)

/-- If a replacement clears a graph and the log misses it, the log claims a quad too
many. -/
theorem Recorded.not_faithful_replaced (h : s.Recorded q₀) {cleared : Option Term}
    (hclears : (s.replacement e p values graph locale).Clears cleared)
    (hmisses : GraphStack.Misses e cleared (s.replacement e p values graph locale).gained
      (s.log.latestFor cleared)) : ¬ (s.replaced e p values graph locale).Faithful q₀ := by
  intro hfaithful
  have hlogged := h.logged_replaced e p values graph locale
  obtain ⟨q, hq, rfl⟩ := Mutation.exists_of_logged hlogged (h.tells cleared) hclears hmisses
  refine hclears.nothing q ?_ rfl
  have hsame := hfaithful q
  rw [changes, hlogged.tidy.contains_replay_changes, hlogged.settled_eq, hq] at hsame
  exact hsame.symm

end

/-! ## Deletions -/

section

variable {e : Entity} {policy : DeletePolicy}

/-- The edits of single graphs that record a deletion. -/
def deletionEdits (s : Session) (e : Entity) (policy : DeletePolicy) : List GraphEdit :=
  graphEdits (s.deletion e policy).after.quads e
    ((s.deletion e policy).lost.filter fun q => blankIn (s.deletion e policy).lost q.graphTerm) []

/-- The log when these edits are logged, before the changes for every graph. -/
def editedLog (s : Session) (e : Entity) (policy : DeletePolicy) : ChangeLog :=
  s.log.addAll ((s.deletionEdits e policy).map .inGraph)

theorem log_deleted (htracking : s.isTracking = true) :
    (s.deleted e policy).log = (s.editedLog e policy).addAll (dropsOf e policy) := by
  rw [deleted_eq, htracking, if_pos rfl, deletionOf_eq, editsOf_eq, ChangeLog.addAll_append]
  rfl

theorem Recorded.logged_deleted (h : s.Recorded q₀) (e : Entity) (policy : DeletePolicy) :
    s.log.Logged (s.deletionEdits e policy) (s.editedLog e policy) := by
  have hlogged := h.tidy.logged_editsOf (s.deletion e policy).after.quads e
    ((s.deletion e policy).lost.filter fun q => blankIn (s.deletion e policy).lost q.graphTerm) []
  rw [editsOf_eq] at hlogged
  exact hlogged

theorem mem_graphTerms_deletionEdits {graph : Option Term} :
    graph ∈ (s.deletionEdits e policy).map GraphEdit.graphTerm ↔
      blankIn (s.deletion e policy).lost graph = true := by
  rw [deletionEdits, mem_graphTerms_graphEdits]
  constructor
  · intro hexists
    obtain ⟨q, hq, rfl⟩ := hexists
    exact (contains_filter_blankIn.mp (hq.resolve_right Bool.noConfusion)).2
  · intro hblank
    obtain ⟨q, hq, -, rfl⟩ := blankIn_iff.mp hblank
    exact ⟨q, .inl (contains_filter_blankIn.mpr ⟨hq, hblank⟩), rfl⟩

/-- The edit of a graph in which a quad with a blank node was lost. -/
theorem exists_deletionEdit {graph : Option Term}
    (hblank : blankIn (s.deletion e policy).lost graph = true) :
    ∃ c ∈ s.deletionEdits e policy, c.graphTerm = graph ∧ c.entity = e ∧
      c.edit = editOf (s.deletion e policy).after.quads (s.deletion e policy).lost
        (s.deletion e policy).gained graph := by
  obtain ⟨c, hc, hgraph⟩ := List.mem_map.mp (mem_graphTerms_deletionEdits.mpr hblank)
  obtain ⟨hentity, hedit⟩ := of_mem_graphEdits hc
  refine ⟨c, hc, hgraph, hentity, ?_⟩
  rw [hedit, hgraph, editOf_filter_blankIn hblank]
  rfl

/-- The stack of a graph with an edit tells what is left, unless the graph was cleared
and the edit is folded into an overwrite. -/
theorem Recorded.tells_editedLog (h : s.Recorded q₀) {graph : Option Term}
    (hblank : blankIn (s.deletion e policy).lost graph = true)
    (hkept : (s.deletion e policy).Clears graph →
      ∀ content, GraphStack.target e (s.log.latestFor graph) ≠ some (.overwrite content)) :
    GraphStack.Tells graph (Change.replay s.log.settled q₀)
      ((s.editedLog e policy).latestFor graph) (s.deletion e policy).after.quads := by
  have hm := accounts_deletion h.consistent.contents e policy
  obtain ⟨c, hc, rfl, hentity, hedit⟩ := exists_deletionEdit hblank
  rw [(h.logged_deleted e policy).pushed c hc]
  refine hm.records (h.tells c.graphTerm) rfl hedit ?_
  by_cases hleft : ∃ x, (s.deletion e policy).after.quads.contains x = true ∧
      x.graphTerm = c.graphTerm
  · exact .inl hleft
  · refine .inr fun hmisses => ?_
    obtain ⟨q, hq, -, hgraph⟩ := blankIn_iff.mp hblank
    rcases hmisses with ⟨content, htarget⟩ | ⟨x, hx, -⟩
    · rw [hentity] at htarget
      exact hkept ⟨⟨q, hq, hgraph⟩, fun x hx hin => hleft ⟨x, hx, hin⟩⟩ content htarget
    · cases hx

/-- If it was cleared and the edit is folded into an overwrite, the edits below the
overwrite are left. -/
theorem Recorded.latestFor_editedLog (h : s.Recorded q₀) {graph : Option Term}
    (hblank : blankIn (s.deletion e policy).lost graph = true)
    (hclears : (s.deletion e policy).Clears graph) {content : Quads}
    (htarget : GraphStack.target e (s.log.latestFor graph) = some (.overwrite content)) :
    (s.editedLog e policy).latestFor graph = (s.log.latestFor graph).tail := by
  have hm := accounts_deletion h.consistent.contents e policy
  obtain ⟨c, hc, rfl, hentity, hedit⟩ := exists_deletionEdit hblank
  rw [(h.logged_deleted e policy).pushed c hc]
  rw [← hentity] at htarget
  exact hm.push_eq_tail (h.tells c.graphTerm) rfl hedit hclears.nothing rfl htarget

/-- Where no edit is made, only quads were lost that the changes for every graph
drop. -/
theorem Recorded.drops_of_lost_untouched (h : s.Recorded q₀) {q : Quad}
    (hblank : ¬ blankIn (s.deletion e policy).lost q.graphTerm = true)
    (hq : (s.deletion e policy).lost.contains q = true) : Drops e policy q := by
  refine drops_of_lost h.consistent.contents hq (Bool.eq_false_iff.mpr fun hinvolves => hblank ?_)
  exact blankIn_iff.mpr ⟨q, hq, hinvolves, rfl⟩

/-- What the changes for every graph do not drop is decided by the edits. -/
theorem Recorded.contains_replay_editedLog (h : s.Recorded q₀) {q : Quad}
    (hdrops : ¬ Drops e policy q) (hkept : ¬ s.Uncovers q₀ e policy q) :
    (Change.replay (s.editedLog e policy).changes q₀).contains q =
      (s.deletion e policy).after.quads.contains q := by
  have hm := accounts_deletion h.consistent.contents e policy
  have hlogged := h.logged_deleted e policy
  rw [hlogged.tidy.contains_replay_changes, hlogged.settled_eq]
  by_cases hblank : blankIn (s.deletion e policy).lost q.graphTerm = true
  · by_cases hoverlooked : (s.deletion e policy).Clears q.graphTerm ∧
        ∃ content, GraphStack.target e (s.log.latestFor q.graphTerm) = some (.overwrite content)
    · obtain ⟨hclears, content, htarget⟩ := hoverlooked
      have hcovered := fun hq => hkept ⟨hclears, hblank, ⟨content, htarget⟩, hq⟩
      have hgone : ¬ (s.deletion e policy).after.quads.contains q = true :=
        fun hleft => hclears.nothing q hleft rfl
      rw [h.latestFor_editedLog hblank hclears htarget, Bool.eq_false_iff.mpr hcovered,
        Bool.eq_false_iff.mpr hgone]
    · refine (h.tells_editedLog hblank fun hclears content htarget => ?_).agrees q rfl
      exact hoverlooked ⟨hclears, content, htarget⟩
  · have huntouched := mt mem_graphTerms_deletionEdits.mp hblank
    rw [hlogged.kept q.graphTerm huntouched, (h.tells q.graphTerm).agrees q rfl, Bool.eq_iff_iff]
    have hlost := hm.lost_iff q
    have hleft := hm.left q
    have hnothing : ¬ (s.deletion e policy).gained.contains q = true := Bool.noConfusion
    have hnotlost := fun hq => hdrops (h.drops_of_lost_untouched hblank hq)
    grind

theorem changes_deleted (htracking : s.isTracking = true) :
    (s.deleted e policy).changes = (s.editedLog e policy).changes ++ dropsOf e policy := by
  rw [changes, log_deleted htracking, ChangeLog.changes_addAll_dropsOf]

theorem Recorded.faithful_deleted (h : s.Recorded q₀)
    (hkept : ∀ q, s.Uncovers q₀ e policy q → Drops e policy q) :
    (s.deleted e policy).Faithful q₀ := by
  intro q
  rw [changes_deleted h.tracking, Change.replay_append, Bool.eq_iff_iff, contains_replay_dropsOf]
  change _ ↔ (s.deletion e policy).after.quads.contains q = true
  by_cases hdrops : Drops e policy q
  · refine iff_of_false (fun hboth => hboth.2 hdrops) fun hleft => ?_
    exact not_drops_of_left h.consistent.contents hleft hdrops
  · have hcovered : ¬ s.Uncovers q₀ e policy q := fun huncovers => hdrops (hkept q huncovers)
    rw [h.contains_replay_editedLog hdrops hcovered, and_iff_left hdrops]

theorem Recorded.deleted (h : s.Recorded q₀)
    (hkept : ∀ q, s.Uncovers q₀ e policy q → Drops e policy q) :
    (s.deleted e policy).Recorded q₀ := by
  have hfaithful := h.faithful_deleted hkept
  have hconsistent := h.consistent.deleted e policy
  cases hblank : e.isBlank with
  | false =>
      refine recorded_of_faithful hconsistent h.live h.tracking ?_ hfaithful
      rw [log_deleted h.tracking]
      exact ChangeLog.unsettled_addAll_dropsOf _ hblank
  | true =>
      have hnodrops : ∀ q, ¬ Drops e policy q :=
        fun q hdrops => Bool.false_ne_true (hdrops.1.symm.trans hblank)
      have hlogged := h.logged_deleted e policy
      have hlog : (s.deleted e policy).log = s.editedLog e policy := by
        rw [log_deleted h.tracking, dropsOf, hblank]
        rfl
      refine ⟨hconsistent, h.live, h.tracking, hlog ▸ hlogged.tidy, fun graph => ?_⟩
      rw [hlog, hlogged.settled_eq]
      change GraphStack.Tells graph _ _ (s.deletion e policy).after.quads
      by_cases hin : blankIn (s.deletion e policy).lost graph = true
      · refine h.tells_editedLog hin fun hclears content htarget => ?_
        -- an overwrite covers a quad, which nothing drops when the entity is blank
        obtain ⟨top, below, hlatest, -, hcontent⟩ := GraphStack.exists_of_target htarget
        have hcovering := (h.tells graph).covering
        rw [hlatest] at hcovering
        obtain ⟨q, hq, rfl⟩ := hcovering.1 ⟨content, hcontent⟩
        refine hnodrops q (hkept q ⟨hclears, hin, ⟨content, htarget⟩, ?_⟩)
        rw [hlatest]
        exact hq
      · rw [hlogged.kept graph (mt mem_graphTerms_deletionEdits.mp hin)]
        have hm := accounts_deletion h.consistent.contents e policy
        refine hm.tells_of_untouched (h.tells graph) fun q hq hgraph => ?_
        subst hgraph
        exact hnodrops q (h.drops_of_lost_untouched hin (hq.resolve_right Bool.noConfusion))

/-- If a deletion clears a graph and uncovers a quad that it does not drop, the log
claims a quad too many. -/
theorem Recorded.not_faithful_deleted (h : s.Recorded q₀) {q : Quad}
    (huncovers : s.Uncovers q₀ e policy q) (hdrops : ¬ Drops e policy q) :
    ¬ (s.deleted e policy).Faithful q₀ := by
  intro hfaithful
  have hlogged := h.logged_deleted e policy
  obtain ⟨content, htarget⟩ := huncovers.overwritten
  have hsame := hfaithful q
  rw [changes_deleted h.tracking, Change.replay_append, Bool.eq_iff_iff, contains_replay_dropsOf,
    hlogged.tidy.contains_replay_changes, hlogged.settled_eq,
    h.latestFor_editedLog huncovers.blank huncovers.clears htarget] at hsame
  exact huncovers.clears.nothing q (hsame.mp ⟨huncovers.covered, hdrops⟩) rfl

end

end Session

/-! ## Runs -/

/-- The command replaces values or deletes an entity. -/
def Command.isMutation : Command → Bool
  | .replace .. => true
  | .delete .. => true
  | _ => false

namespace Session

variable {q₀ : Quads} {s t : Session} {command : Command}

theorem Recorded.step (h : s.Recorded q₀) (hmutation : command.isMutation = true)
    (hkept : ¬ s.Loses q₀ command) : (s.step command).Recorded q₀ := by
  cases hperform : s.perform command with
  | error refusal =>
      rw [step_eq_of_refused hperform]
      exact h
  | ok t =>
      rw [step_eq_of_perform hperform]
      cases command with
      | replace e predicate values graph locale =>
          obtain ⟨hlive, p, hp, rfl⟩ := replace_eq_ok.mp hperform
          refine h.replaced fun cleared hclears hmisses => hkept ?_
          exact .replacing (admitReplace_eq_ok.mpr ⟨hlive, hp⟩) hclears hmisses
      | delete e policy =>
          obtain ⟨hlive, rfl⟩ := delete_eq_ok.mp hperform
          refine h.deleted fun q huncovers => ?_
          by_contra hdrops
          exact hkept (.deleting hlive huncovers hdrops)
      | load e quads => cases hmutation
      | reset => cases hmutation
      | rollback => cases hmutation
      | takeChanges => cases hmutation
      | setThreadSafe threadSafe => cases hmutation
      | setTracking tracking => cases hmutation
      | dispose => cases hmutation

theorem Recorded.not_faithful_step (h : s.Recorded q₀) (hloses : s.Loses q₀ command) :
    ¬ (s.step command).Faithful q₀ := by
  cases hloses with
  | replacing admitted clears misses =>
      obtain ⟨hlive, hp⟩ := admitReplace_eq_ok.mp admitted
      rw [step_eq_of_perform (replace_eq_ok.mpr ⟨hlive, _, hp, rfl⟩)]
      exact h.not_faithful_replaced clears misses
  | @deleting e policy q live uncovers kept =>
      have hperform : s.perform (.delete e policy) = .ok (s.deleted e policy) :=
        delete_eq_ok.mpr ⟨live, rfl⟩
      rw [step_eq_of_perform hperform]
      exact h.not_faithful_deleted uncovers kept

theorem Recorded.forall_faithful_iff (h : s.Recorded q₀) {mutations : List Command}
    (hmutations : ∀ c ∈ mutations, c.isMutation = true) :
    (∀ n, (s.run (mutations.take n)).Faithful q₀) ↔
      ∀ n c, mutations[n]? = some c → ¬ (s.run (mutations.take n)).Loses q₀ c := by
  induction mutations generalizing s with
  | nil =>
      refine iff_of_true (fun n => ?_) fun n c hc => by cases hc
      rw [List.take_nil]
      exact h.faithful
  | cons command rest ih =>
      obtain ⟨hmutation, hrest⟩ := List.forall_mem_cons.mp hmutations
      constructor
      · intro hfaithful
        have hkept : ¬ s.Loses q₀ command :=
          fun hloses => h.not_faithful_step hloses (hfaithful 1)
        have hlater := (ih (h.step hmutation hkept) hrest).mp fun n => hfaithful (n + 1)
        intro n c hc
        cases n with
        | zero =>
            cases hc
            exact hkept
        | succ n => exact hlater n c hc
      · intro hkept
        have hfirst : ¬ s.Loses q₀ command := hkept 0 command rfl
        have hlater := (ih (h.step hmutation hfirst) hrest).mpr fun n c hc => hkept (n + 1) c hc
        intro n
        cases n with
        | zero => exact h.faithful
        | succ n => exact hlater n

/-- From a reset on, the log of a tracking session is faithful through a run of
replacements and deletions if and only if no step of the run loses anything. -/
theorem faithful_run_iff {options : Options} {commands : List Command}
    (hs : (start options).run commands = s) (htracking : s.isTracking = true)
    (ht : s.reset = .ok t) {mutations : List Command}
    (hmutations : ∀ c ∈ mutations, c.isMutation = true) :
    (∀ n, (t.run (mutations.take n)).Faithful t.contents.quads.primary) ↔
      ∀ n c, mutations[n]? = some c →
        ¬ (t.run (mutations.take n)).Loses t.contents.quads.primary c := by
  have hconsistent : s.Consistent := hs ▸ consistent_run options commands
  exact (recorded_reset hconsistent htracking ht).forall_faithful_iff hmutations

open Sample in
/-- The values of an address are replaced by none, one predicate after the other. -/
theorem faithful_run_iff_address :
    let s := (start {}).run [.load (.blank address)
      [fact (.blank address) knows (.iri person), fact (.blank address) livesAt (.iri person)]]
    let mutations := [.replace (.blank address) (.ofTerm (.iri knows)) [] none none,
      .replace (.blank address) (.ofTerm (.iri livesAt)) [] none none]
    s.isTracking = true ∧ (∀ c ∈ mutations, Command.isMutation c = true) ∧
      ∃ t, s.reset = .ok t ∧
        ((∀ n, (t.run (mutations.take n)).Faithful t.contents.quads.primary) ↔
          ∀ n c, mutations[n]? = some c →
            ¬ (t.run (mutations.take n)).Loses t.contents.quads.primary c) := by
  intro s mutations
  have htracking : s.isTracking = true := by decide
  have hmutations : ∀ c ∈ mutations, Command.isMutation c = true := by
    intro c hc
    rcases List.mem_cons.mp hc with rfl | hc
    · rfl
    · cases List.mem_singleton.mp hc
      rfl
  obtain ⟨t, ht⟩ : ∃ t, s.reset = .ok t := ⟨_, rfl⟩
  exact ⟨htracking, hmutations, t, ht, faithful_run_iff rfl htracking ht hmutations⟩

open Sample in
/-- After these two replacements the log lists no change, but the session has lost
both quads: the first one left an overwrite, and the second one emptied it. -/
theorem not_faithful_address :
    let s := (start {}).run [.load (.blank address)
      [fact (.blank address) knows (.iri person), fact (.blank address) livesAt (.iri person)]]
    ∃ t, s.isTracking = true ∧ s.reset = .ok t ∧
      ¬ (t.run [.replace (.blank address) (.ofTerm (.iri knows)) [] none none,
        .replace (.blank address) (.ofTerm (.iri livesAt)) [] none none]).Faithful
          t.contents.quads.primary := by
  intro s
  let t : Session := { s with
    baseline := s.baseline.map fun _ => .ofContents s.contents
    log := s.log.clear }
  let first := t.replacedAlone (.blank address) ⟨.ofTerm (.iri knows), rfl⟩ [] none none
  let second := first.replacedAlone (.blank address) ⟨.ofTerm (.iri livesAt), rfl⟩ [] none none
  have hfirst : t.step (.replace (.blank address) (.ofTerm (.iri knows)) [] none none) = first :=
    step_eq_of_perform (replace_eq_ok.mpr
      ⟨rfl, ⟨.ofTerm (.iri knows), rfl⟩, rfl, replaced_eq_replacedAlone (by decide)⟩)
  have hsecond :
      first.step (.replace (.blank address) (.ofTerm (.iri livesAt)) [] none none) = second :=
    step_eq_of_perform (replace_eq_ok.mpr
      ⟨rfl, ⟨.ofTerm (.iri livesAt), rfl⟩, rfl, replaced_eq_replacedAlone (by decide)⟩)
  have hrun : t.run [.replace (.blank address) (.ofTerm (.iri knows)) [] none none,
      .replace (.blank address) (.ofTerm (.iri livesAt)) [] none none] = second := by
    rw [run, List.foldl_cons, List.foldl_cons, List.foldl_nil, hfirst, hsecond]
  refine ⟨t, by decide, rfl, fun hfaithful => ?_⟩
  rw [hrun] at hfaithful
  have hclaimed := hfaithful (fact (.blank address) knows (.iri person))
  exact absurd hclaimed (by decide +kernel)

end Session

end QuadSession

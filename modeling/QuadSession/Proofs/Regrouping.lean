import QuadSession.ChangeLog.Command
import QuadSession.Proofs.Replay
import QuadSession.Proofs.Runs
import QuadSession.Proofs.Sample

/-!
# A log tells what went into it

A log regroups edits by their graphs, folds edits of one entity into each other,
drops what cancels out, and is taken apart by draining it.  This file proves that
the changes it lists still do what the changes that were added do in their own
order, whatever the set of quads they are carried out on.

## Strategy

What a log has said is replayed in two parts: first what was drained and what is
settled, then the stacks.  Within a stack `GraphStack.contains_result_push` shows
that pushing an exact edit carries it out, and the stacks of other graphs do not
matter to the quads of its graph.  A change that crosses graphs settles all stacks
as they are, and draining moves the border between the two parts without changing
the whole, so in both cases the edits on the stacks keep their meaning.

Edits are given as exact on what was *added* so far.  The invariant
(`ChangeLog.History.Retells`) says that this is the same set as what the log has said
so far, so they are exact on the stack of their graph as well.

## Main definitions

* `ChangeLog.History.Sound`: the uses of a log that do not distort what it says.
* `ChangeLog.History.Retells`: the log has said what was added.

## Main statements

* `ChangeLog.History.Retells.step`: a sound use keeps what the log has said equal to
  what was added.
* `ChangeLog.History.contains_replay_told`: so does a run of sound uses.
-/

namespace QuadSession

/-! ## What decides about a quad -/

/-- What a change makes of a quad depends on nothing but this quad. -/
theorem Change.contains_apply_congr (change : Change) {s t : Quads} {q : Quad}
    (h : s.contains q = t.contains q) :
    (change.apply s).contains q = (change.apply t).contains q := by
  cases change with
  | inGraph c => exact Edit.contains_apply_congr c.edit h
  | dropEntity e => rw [contains_apply_dropEntity, contains_apply_dropEntity, h]
  | dropReferences e => rw [contains_apply_dropReferences, contains_apply_dropReferences, h]

/-- An edit of a graph is exact if it is so on the quads of the graph. -/
theorem Edit.ExactOn.congr {edit : Edit} {graph : Option Term} {s t : Quads}
    (h : edit.ExactOn s) (hlies : edit.LiesIn graph)
    (hst : ∀ q : Quad, q.graphTerm = graph → s.contains q = t.contains q) : edit.ExactOn t := by
  cases edit with
  | overwrite content => trivial
  | update removed added =>
      constructor
      · intro q hq
        exact (hst q (hlies q (.inl hq))).symm.trans (h.1 q hq)
      · intro q hq
        exact (hst q (hlies q (.inr hq))).symm.trans (h.2 q hq)

namespace ChangeLog

/-- Adding the edit leaves an overwrite without content, which is dropped. -/
def DropsOverwrite (log : ChangeLog) (c : GraphEdit) : Prop :=
  c.isEmpty = false ∧ GraphStack.Empties (log.latestFor c.graphTerm) c

namespace History

variable {s : Quads} {h : History} {command : Command} {c : GraphEdit}

/-- A use of the log that does not make it say anything else than what was added, when
it is carried out on the quads `s`.  An edit names only quads of its graph, is exact
on what the changes before it make of `s`, does not overwrite the graph by nothing,
and does not drop an overwrite.  Nothing is asked of the other uses. -/
inductive Sound (s : Quads) (h : History) : Command → Prop where
  | edit {c : GraphEdit} (lies : c.edit.LiesIn c.graphTerm)
      (exact : c.edit.ExactOn (Change.replay h.added s))
      (stated : ∀ content, c.edit = .overwrite content → content.isEmpty = false)
      (kept : ¬ h.log.DropsOverwrite c) : Sound s h (.add (.inGraph c))
  | crossing {change : Change} (crosses : change.crossesGraphs = true) : Sound s h (.add change)
  | drain : Sound s h .drain

/-- The quads on which the stacks of the log are carried out: what was drained and
what is settled has been carried out already. -/
def base (s : Quads) (h : History) : Quads :=
  Change.replay (h.drained ++ h.log.settled) s

/-- What the log has said does what was added. -/
structure Retells (s : Quads) (h : History) : Prop where
  tidy : h.log.Tidy
  exact : ∀ graph, GraphStack.Exact (h.base s) (h.log.latestFor graph)
  agrees : ∀ q, (Change.replay h.told s).contains q = (Change.replay h.added s).contains q

theorem retells_start (s : Quads) (threadSafe : Bool) : Retells s (start threadSafe) where
  tidy := tidy_of_unsettled_eq_nil rfl
  exact _ := trivial
  agrees _ := rfl

/-- A quad is decided by the stack of its graph, carried out on the base. -/
theorem contains_replay_told_of_tidy (s : Quads) (htidy : h.log.Tidy) (q : Quad) :
    (Change.replay h.told s).contains q =
      (GraphStack.result (h.base s) (h.log.latestFor q.graphTerm)).contains q := by
  rw [told, Change.replay_append, htidy.contains_replay_changes, base, Change.replay_append]

theorem Retells.contains_replay_added (hr : h.Retells s) (q : Quad) :
    (Change.replay h.added s).contains q =
      (GraphStack.result (h.base s) (h.log.latestFor q.graphTerm)).contains q := by
  rw [← hr.agrees q, contains_replay_told_of_tidy s hr.tidy]

/-- What is exact after the added changes is exact on top of the stack of its graph. -/
theorem Retells.exactOn_result (hr : h.Retells s) (hlies : c.edit.LiesIn c.graphTerm)
    (hexact : c.edit.ExactOn (Change.replay h.added s)) :
    c.edit.ExactOn (GraphStack.result (h.base s) (h.log.latestFor c.graphTerm)) :=
  hexact.congr hlies fun q hq => hq ▸ hr.contains_replay_added q

/-! ## One use -/

/-- Where no stack is left, all that counts is what was added and said. -/
theorem retells_of_unsettled_eq_nil (hnone : h.log.unsettled = [])
    (hagrees : ∀ q, (Change.replay h.told s).contains q = (Change.replay h.added s).contains q) :
    h.Retells s where
  tidy := tidy_of_unsettled_eq_nil hnone
  exact graph := by
    rw [latestFor, hnone]
    trivial
  agrees := hagrees

theorem Retells.addCrossing (hr : h.Retells s) {change : Change}
    (hcrosses : change.crossesGraphs = true) : (h.step (.add change)).Retells s := by
  have hadd := add_of_crossesGraphs h.log hcrosses
  have htold : (h.step (.add change)).told = h.told ++ [change] := by
    simp only [step, told, hadd, changes, unsettledChanges, List.flatMap_nil, List.append_nil,
      List.append_assoc]
  refine retells_of_unsettled_eq_nil (by simp only [step, hadd]) fun q => ?_
  rw [htold, step, Change.replay_append, Change.replay_append]
  exact change.contains_apply_congr (hr.agrees q)

theorem Retells.drain (hr : h.Retells s) : (h.step .drain).Retells s := by
  have htold : (h.step .drain).told = h.told := by
    simp only [step, told, ChangeLog.drain, changes_clear, List.append_nil]
  refine retells_of_unsettled_eq_nil rfl fun q => ?_
  rw [htold]
  exact hr.agrees q

/-- An edit without quads is not logged, and does nothing. -/
theorem Retells.addEmpty (hr : h.Retells s) (hempty : c.isEmpty = true)
    (hstated : ∀ content, c.edit = .overwrite content → content.isEmpty = false) :
    (h.step (.add (.inGraph c))).Retells s := by
  have hadd : h.log.add (.inGraph c) = h.log := add_of_isEmpty h.log hempty
  have hstep : h.step (.add (.inGraph c)) = ⟨h.added ++ [.inGraph c], h.drained, h.log⟩ := by
    rw [step, hadd]
  rw [hstep]
  refine ⟨hr.tidy, hr.exact, fun q => (hr.agrees q).trans ?_⟩
  rw [Change.replay_append]
  cases hedit : c.edit with
  | overwrite content =>
      rw [GraphEdit.isEmpty, hedit] at hempty
      exact absurd hempty (Bool.eq_false_iff.mp (hstated content hedit))
  | update removed added =>
      rw [GraphEdit.isEmpty, hedit] at hempty
      change _ = (c.edit.apply c.graphTerm (Change.replay h.added s)).contains q
      rw [hedit, Edit.contains_apply_of_isEmpty hempty]

theorem Retells.addEdit (hr : h.Retells s) (hnonempty : c.isEmpty = false)
    (hlies : c.edit.LiesIn c.graphTerm) (hexact : c.edit.ExactOn (Change.replay h.added s))
    (hkept : ¬ GraphStack.Empties (h.log.latestFor c.graphTerm) c) :
    (h.step (.add (.inGraph c))).Retells s := by
  have htidy : (h.step (.add (.inGraph c))).log.Tidy := hr.tidy.add_inGraph hnonempty hlies
  have hbase : (h.step (.add (.inGraph c))).base s = h.base s := by
    rw [base, base, step, settled_add_inGraph h.log hnonempty]
  have hlatest : ∀ graph, (h.step (.add (.inGraph c))).log.latestFor graph =
      if c.graphTerm = graph then GraphStack.push (h.log.latestFor graph) c
      else h.log.latestFor graph := h.log.latestFor_add_inGraph hnonempty
  have hexact' := hr.exactOn_result hlies hexact
  refine ⟨htidy, fun graph => ?_, fun q => ?_⟩
  · rw [hbase, hlatest]
    split
    · rename_i hgraph
      subst hgraph
      exact (hr.exact c.graphTerm).push hexact'
    · exact hr.exact graph
  · have hadded := hr.contains_replay_added q
    rw [contains_replay_told_of_tidy s htidy, hbase, hlatest, step, Change.replay_append]
    show _ = (c.edit.apply c.graphTerm (Change.replay h.added s)).contains q
    by_cases hgraph : c.graphTerm = q.graphTerm
    · rw [← hgraph] at hadded
      rw [if_pos hgraph, ← hgraph]
      calc (GraphStack.result (h.base s)
            (GraphStack.push (h.log.latestFor c.graphTerm) c)).contains q
          = (c.edit.apply c.graphTerm
              (GraphStack.result (h.base s) (h.log.latestFor c.graphTerm))).contains q :=
            GraphStack.contains_result_push (hr.tidy.fits_latestFor c.graphTerm) ⟨rfl, hlies⟩
              (hr.exact c.graphTerm) hexact' hkept q
        _ = (c.edit.apply c.graphTerm (Change.replay h.added s)).contains q :=
            Edit.contains_apply_congr c.edit hadded.symm
    · rw [if_neg hgraph]
      calc (GraphStack.result (h.base s) (h.log.latestFor q.graphTerm)).contains q
          = (Change.replay h.added s).contains q := hadded.symm
        _ = (c.edit.apply c.graphTerm (Change.replay h.added s)).contains q :=
            (hlies.contains_apply_of_ne (Ne.symm hgraph) _).symm

theorem Retells.step (hr : h.Retells s) (hsound : h.Sound s command) :
    (h.step command).Retells s := by
  cases hsound with
  | @edit c hlies hexact hstated hkept =>
      cases hempty : c.isEmpty with
      | true => exact hr.addEmpty hempty hstated
      | false => exact hr.addEdit hempty hlies hexact fun hempties => hkept ⟨hempty, hempties⟩
  | crossing hcrosses => exact hr.addCrossing hcrosses
  | drain => exact hr.drain

/-! ## A run of uses -/

/-- However a log was filled and drained, all that it has said does to a set of quads
what the added changes do in their own order. -/
theorem contains_replay_told (s : Quads) {threadSafe : Bool} {commands : List Command}
    (hsound : ∀ n c, commands[n]? = some c →
      ((start threadSafe).run (commands.take n)).Sound s c) (q : Quad) :
    (Change.replay ((start threadSafe).run commands).told s).contains q =
      (Change.replay ((start threadSafe).run commands).added s).contains q := by
  have hretells : ((start threadSafe).run commands).Retells s :=
    foldl_of_permitted (fun _ _ hr hcommand => hr.step hcommand) (retells_start s threadSafe)
      hsound
  exact hretells.agrees q

open Sample in
/-- In two edits a person moves from an address to knowing itself.  The edits are
folded into one and drained, and then all references to the person are dropped. -/
theorem contains_replay_told_person :
    let moved := fact (.iri person) livesAt (.blank address)
    let met := fact (.iri person) knows (.iri person)
    let s := Quads.ofList [moved]
    let commands := [.add (.inGraph ⟨.iri person, none, .update (Quads.ofList [moved]) ∅⟩),
      .add (.inGraph ⟨.iri person, none, .update ∅ (Quads.ofList [met])⟩), .drain,
      .add (.dropReferences (.iri person))]
    (∀ n c, commands[n]? = some c → ((start false).run (commands.take n)).Sound s c) ∧
      ∀ q, (Change.replay ((start false).run commands).told s).contains q =
        (Change.replay ((start false).run commands).added s).contains q := by
  intro moved met s commands
  have hsound : ∀ n c, commands[n]? = some c →
      ((start false).run (commands.take n)).Sound s c := by
    intro n c hc
    match n with
    | 0 =>
        cases hc
        refine .edit (by decide) (by decide) (fun content hcontent => by cases hcontent) ?_
        rintro ⟨-, top, below, merged, content, hlatest, -⟩
        cases hlatest
    | 1 =>
        cases hc
        refine .edit (by decide) (by decide) (fun content hcontent => by cases hcontent) ?_
        rintro ⟨-, top, below, merged, content, hlatest, hmerge, hedit, -⟩
        cases hlatest
        have hfold := (GraphEdit.foldsTo_of_merge? hmerge).merge?_eq
        rw [hedit] at hfold
        cases hfold
    | 2 =>
        cases hc
        exact .drain
    | 3 =>
        cases hc
        exact .crossing rfl
    | n + 4 => cases hc
  exact ⟨hsound, contains_replay_told s hsound⟩

end History

end ChangeLog

end QuadSession

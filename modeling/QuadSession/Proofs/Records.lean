import QuadSession.Proofs.Faithful
import QuadSession.Proofs.Replacing

/-!
# What a drained log records

Once all changes have been taken out of the log, the next replacement or deletion is
recorded by itself: no edit is folded into an earlier one.  This file says which
changes are then listed and when replaying them leads from the quads before to the
quads after.

## Strategy

The edits of a mutation are all of different graphs and none of them is empty, so in
a log without stacks each of them starts a stack of its own
(`ChangeLog.changes_addAll_edits`), and the listed changes are the edits of the
mutation.  Which edit a graph gets was decided by the lists of lost and gained quads.
Where no gained quad is lost in the same step these lists are the two differences
between the quads before and after (`Mutation.Exact`).

Two things keep the quads apart: a deletion gains nothing, and an entity with an IRI
keeps its new values (`Session.not_lost_of_gained`).  A blank entity may lose the
values that it has just gained.  The update of a graph in which nothing remains then
adds quads that are gone again, and this is the only way in which replaying goes wrong
(`Session.faithful_replaced_iff`).

## Main definitions

* `Edit.States` and `Edit.Exchanges`: what an edit says, as sets of quads.
* `OnePerGraph`: there is one edit for each of the graphs.
* `Mutation.Exact`: what was lost and gained is the difference between before and after.

## Main statements

* `Session.delete_recorded`: the changes of a deletion.
* `Session.faithful_replaced_iff`: when the changes of a replacement are right.
* `Session.replace_recorded`: the changes of a replacement for an entity with an IRI.
-/

namespace QuadSession

/-! ## Edits as sets of quads -/

/-- The quads of the graph, the default graph if none is named. -/
def lyingIn (graph : Option Term) : Set Quad :=
  {q | q.graphTerm = graph}

/-- The quads of a set of quads. -/
def Quads.members (s : Quads) : Set Quad :=
  {q | s.contains q = true}

namespace Edit

/-- The edit states that the quads are the whole content of its graph. -/
def States (edit : Edit) (content : Set Quad) : Prop :=
  ∃ quads, edit = .overwrite quads ∧ quads.members = content

/-- The edit takes away the ones and adds the others. -/
def Exchanges (edit : Edit) (away more : Set Quad) : Prop :=
  ∃ removed added, edit = .update removed added ∧ removed.members = away ∧ added.members = more

end Edit

/-- The edits are made on behalf of the entity, one for each of the graphs and none
for any other. -/
structure OnePerGraph (edits : List GraphEdit) (e : Entity) (graphs : Set (Option Term)) :
    Prop where
  distinct : (edits.map GraphEdit.graphTerm).Nodup
  mem_iff : ∀ graph, graph ∈ edits.map GraphEdit.graphTerm ↔ graph ∈ graphs
  entity_eq : ∀ c ∈ edits, c.entity = e

theorem onePerGraph_graphEdits (d : Dataset) (e : Entity) (lost gained : List Quad) :
    OnePerGraph (graphEdits d e lost gained) e
      {graph | ∃ q, (lost.contains q = true ∨ gained.contains q = true) ∧
        q.graphTerm = graph} where
  distinct := by
    rw [graphTerms_graphEdits]
    exact nodup_graphsOf _
  mem_iff graph := mem_graphTerms_graphEdits
  entity_eq c hc := (of_mem_graphEdits hc).1

section

variable {d : Dataset} {lost gained : List Quad} {graph : Option Term}

theorem members_ofList_inGraph (quads : List Quad) :
    (Quads.ofList (Session.inGraph graph quads)).members = listedIn quads ∩ lyingIn graph := by
  ext q
  show (Quads.ofList (Session.inGraph graph quads)).contains q = true ↔ _
  rw [Quads.contains_ofList, contains_inGraph, Bool.and_eq_true, beq_iff_eq]
  rfl

/-- Where a quad with a blank node was lost and something remains, the edit states
what remains. -/
theorem states_editOf (hblank : Session.blankIn lost graph = true)
    (hleft : (d.members ∩ lyingIn graph).Nonempty) :
    (Session.editOf d lost gained graph).States (d.members ∩ lyingIn graph) := by
  obtain ⟨x, hx, hgraph⟩ := hleft
  refine ⟨_, editOf_eq_overwrite hblank hx hgraph, ?_⟩
  ext q
  show (Quads.ofList (d.inGraph graph)).contains q = true ↔ _
  rw [Quads.contains_ofList, Dataset.contains_inGraph, Bool.and_eq_true, beq_iff_eq]
  rfl

end

/-- What a graph holds of one set and of another differs if a quad of the graph is in one
of them only. -/
theorem inter_lyingIn_ne_iff {before after : Set Quad} {graph : Option Term} :
    before ∩ lyingIn graph ≠ after ∩ lyingIn graph ↔
      ∃ q, (q ∈ before \ after ∨ q ∈ after \ before) ∧ q.graphTerm = graph := by
  rw [Ne, Set.ext_iff, not_forall]
  refine exists_congr fun q => ?_
  show ¬ (q ∈ before ∧ q.graphTerm = graph ↔ q ∈ after ∧ q.graphTerm = graph) ↔
    (q ∈ before ∧ q ∉ after ∨ q ∈ after ∧ q ∉ before) ∧ q.graphTerm = graph
  by_cases hgraph : q.graphTerm = graph
  · simp only [hgraph, and_true]
    tauto
  · simp only [hgraph, and_false, not_true]

/-! ## Mutations that lose nothing they gain -/

namespace Mutation

variable {m : Mutation} {before : Dataset} {graph : Option Term}

/-- The lost quads are those that are missing afterwards, and the gained ones those that
are new. -/
structure Exact (m : Mutation) (before : Dataset) : Prop where
  lost_eq : listedIn m.lost = before.members \ m.after.quads.members
  gained_eq : listedIn m.gained = m.after.quads.members \ before.members

/-- This is so if no gained quad is lost in the same step. -/
theorem Accounts.exact (hm : m.Accounts before)
    (hapart : ∀ q, m.gained.contains q = true → ¬ m.lost.contains q = true) : m.Exact before := by
  constructor
  · ext q
    show m.lost.contains q = true ↔ before.contains q = true ∧ ¬ m.after.quads.contains q = true
    have hlost := hm.lost_iff q
    have hgained := hapart q
    grind
  · ext q
    show m.gained.contains q = true ↔
      m.after.quads.contains q = true ∧ ¬ before.contains q = true
    have hlost := hm.lost_iff q
    have hgained := hapart q
    have hnew := hm.gained_new q
    have hleft := hm.left q
    grind

theorem Exact.blankIn_lost_iff (h : m.Exact before) : Session.blankIn m.lost graph = true ↔
    ∃ q ∈ (before.members \ m.after.quads.members) ∩ lyingIn graph, q.involvesBlank = true := by
  rw [blankIn_iff, ← h.lost_eq]
  exact exists_congr fun q => (and_congr_right' and_comm).trans and_assoc.symm

/-- There is an edit for each graph in which something has changed. -/
theorem Exact.onePerGraph (h : m.Exact before) (e : Entity) :
    OnePerGraph (graphEdits m.after.quads e m.lost m.gained) e
      {graph | before.members ∩ lyingIn graph ≠ m.after.quads.members ∩ lyingIn graph} where
  distinct := (onePerGraph_graphEdits _ _ _ _).distinct
  mem_iff graph := by
    rw [mem_graphTerms_graphEdits]
    show (∃ q, (q ∈ listedIn m.lost ∨ q ∈ listedIn m.gained) ∧ q.graphTerm = graph) ↔
      before.members ∩ lyingIn graph ≠ m.after.quads.members ∩ lyingIn graph
    rw [h.lost_eq, h.gained_eq, inter_lyingIn_ne_iff]
  entity_eq c hc := (of_mem_graphEdits hc).1

/-- Where the edit does not state what remains, it exchanges the one difference for
the other. -/
theorem Exact.exchanges_editOf (h : m.Exact before)
    (hupdate : Session.blankIn m.lost graph = false ∨
      m.after.quads.members ∩ lyingIn graph = ∅) :
    (Session.editOf m.after.quads m.lost m.gained graph).Exchanges
      ((before.members \ m.after.quads.members) ∩ lyingIn graph)
      ((m.after.quads.members \ before.members) ∩ lyingIn graph) := by
  have hnothing : Session.blankIn m.lost graph = false ∨
      ∀ q, m.after.quads.contains q = true → q.graphTerm ≠ graph := by
    refine hupdate.imp id fun hempty q hq hgraph => ?_
    exact Set.eq_empty_iff_forall_notMem.mp hempty q ⟨hq, hgraph⟩
  refine ⟨_, _, editOf_eq_update hnothing, ?_, ?_⟩
  · rw [members_ofList_inGraph, h.lost_eq]
  · rw [members_ofList_inGraph, h.gained_eq]

end Mutation

/-! ## Edits in a log without stacks -/

/-- An empty stack misses what is gained in a cleared graph, and nothing else. -/
theorem GraphStack.misses_nil_iff {e : Entity} {graph : Option Term} {gained : List Quad} :
    Misses e graph gained [] ↔ ∃ q, gained.contains q = true ∧ q.graphTerm = graph := by
  constructor
  · rintro (⟨content, htarget⟩ | ⟨q, hq, hin, -⟩)
    · cases htarget
    · exact ⟨q, hq, hin⟩
  · rintro ⟨q, hq, hin⟩
    exact .inr ⟨q, hq, hin, fun removed added htarget => by cases htarget⟩

namespace ChangeLog

variable {c : GraphEdit} {unsettled : List GraphStack}

theorem pushOnStack_of_not_mem (h : c.graphTerm ∉ unsettled.map GraphStack.graph) :
    pushOnStack c unsettled = unsettled ++ [⟨c.graphTerm, [c]⟩] := by
  induction unsettled with
  | nil => rfl
  | cons stack rest ih =>
      rw [List.map_cons, List.mem_cons, not_or] at h
      rw [pushOnStack, if_neg (Ne.symm h.1), ih h.2, List.cons_append]

/-- Edits of different graphs that have no stack yet are listed as they are. -/
theorem changes_addAll_edits (log : ChangeLog) {edits : List GraphEdit}
    (hdistinct : (edits.map GraphEdit.graphTerm).Nodup)
    (hedits : ∀ c ∈ edits, c.isEmpty = false)
    (hnew : ∀ c ∈ edits, c.graphTerm ∉ log.unsettled.map GraphStack.graph) :
    (log.addAll (edits.map .inGraph)).changes = log.changes ++ edits.map .inGraph := by
  induction edits generalizing log with
  | nil => exact (List.append_nil _).symm
  | cons c rest ih =>
      rw [List.map_cons, List.nodup_cons] at hdistinct
      obtain ⟨hempty, hrest⟩ := List.forall_mem_cons.mp hedits
      obtain ⟨hc, hnew⟩ := List.forall_mem_cons.mp hnew
      have hadd : log.add (.inGraph c) =
          { log with unsettled := log.unsettled ++ [⟨c.graphTerm, [c]⟩] } := by
        rw [add_inGraph log hempty, pushOnStack_of_not_mem hc]
      have hchanges : (log.add (.inGraph c)).changes = log.changes ++ [.inGraph c] := by
        rw [hadd]
        simp [changes, unsettledChanges, GraphStack.changes]
      have hlater : ∀ d ∈ rest,
          d.graphTerm ∉ (log.add (.inGraph c)).unsettled.map GraphStack.graph := by
        intro d hd hin
        rw [hadd, List.map_append, List.mem_append] at hin
        rcases hin with hold | hsame
        · exact hnew d hd hold
        · rw [List.map_singleton, List.mem_singleton] at hsame
          have hgraph : d.graphTerm = c.graphTerm := hsame
          exact hdistinct.1 (hgraph ▸ List.mem_map_of_mem hd)
      calc (log.addAll ((c :: rest).map .inGraph)).changes
          = ((log.add (.inGraph c)).addAll (rest.map .inGraph)).changes := rfl
        _ = (log.add (.inGraph c)).changes ++ rest.map .inGraph :=
            ih _ hdistinct.2 hrest hlater
        _ = log.changes ++ (c :: rest).map .inGraph := by
            rw [hchanges, List.append_assoc]
            rfl

/-- In a new log the edits of a mutation are all there is. -/
theorem changes_addAll_graphEdits (threadSafe : Bool) (d : Dataset) (e : Entity)
    (lost gained : List Quad) :
    ((new threadSafe).addAll ((graphEdits d e lost gained).map .inGraph)).changes =
      (graphEdits d e lost gained).map .inGraph := by
  have hgraphs := onePerGraph_graphEdits d e lost gained
  have hnew : ∀ c ∈ graphEdits d e lost gained,
      c.graphTerm ∉ (new threadSafe).unsettled.map GraphStack.graph := fun _ _ => List.not_mem_nil
  refine changes_addAll_edits _ hgraphs.distinct (fun c hc => ?_) hnew
  obtain ⟨q, hq, hgraph⟩ := (hgraphs.mem_iff c.graphTerm).mp (List.mem_map_of_mem hc)
  rw [GraphEdit.isEmpty, (of_mem_graphEdits hc).2]
  exact isEmpty_editOf hq hgraph

end ChangeLog

/-! ## Sessions whose log was drained -/

namespace Session

variable {s t : Session} {options : Options} {commands : List Command}

theorem log_of_drained (hs : (start options).run (commands ++ [.takeChanges]) = s) :
    ∃ threadSafe, s.log = .new threadSafe := by
  refine ⟨((start options).run commands).log.threadSafe, ?_⟩
  rw [← hs, run, List.foldl_append]
  rfl

/-- With nothing in the log, the quads of the session are what the log starts from. -/
theorem recorded_of_drained (hs : (start options).run (commands ++ [.takeChanges]) = s)
    (hlive : s.closed = false) (htracking : s.isTracking = true) :
    s.Recorded s.contents.quads.primary := by
  obtain ⟨threadSafe, hlog⟩ := log_of_drained hs
  refine recorded_of_faithful (hs ▸ consistent_run options _) hlive htracking ?_ fun q => ?_
  · rw [hlog]
    rfl
  · rw [changes, hlog]
    rfl

/-! ### Deletions -/

section

variable {e : Entity} {policy : DeletePolicy}

/-- A deletion gains nothing. -/
theorem exact_deletion (h : s.contents.Consistent) (e : Entity) (policy : DeletePolicy) :
    (s.deletion e policy).Exact s.contents.quads :=
  (accounts_deletion h e policy).exact fun _ hq => Bool.noConfusion hq

theorem onePerGraph_deletionEdits (h : s.contents.Consistent) (e : Entity)
    (policy : DeletePolicy) :
    OnePerGraph (s.deletionEdits e policy) e
      {graph | ∃ q ∈ (s.contents.quads.members \ (s.deletion e policy).after.quads.members) ∩
        lyingIn graph, q.involvesBlank = true} where
  distinct := (onePerGraph_graphEdits _ _ _ _).distinct
  mem_iff _ := mem_graphTerms_deletionEdits.trans (exact_deletion h e policy).blankIn_lost_iff
  entity_eq _ hc := (of_mem_graphEdits hc).1

/-- The edit of a graph states what remains in it, or takes away all that was there. -/
theorem of_mem_deletionEdits (h : s.contents.Consistent) {c : GraphEdit}
    (hc : c ∈ s.deletionEdits e policy) :
    let before := s.contents.quads.members ∩ lyingIn c.graphTerm
    let after := (s.deletion e policy).after.quads.members ∩ lyingIn c.graphTerm
    (after.Nonempty → c.edit.States after) ∧ (after = ∅ → c.edit.Exchanges before ∅) := by
  intro before after
  have hblank := mem_graphTerms_deletionEdits.mp (List.mem_map_of_mem hc)
  have hedit : c.edit = editOf (s.deletion e policy).after.quads (s.deletion e policy).lost
      (s.deletion e policy).gained c.graphTerm :=
    (of_mem_graphEdits hc).2.trans (editOf_filter_blankIn hblank)
  rw [hedit]
  refine ⟨states_editOf hblank, fun hempty => ?_⟩
  have hexchanges := (exact_deletion h e policy).exchanges_editOf (.inr hempty)
  have haway : (s.contents.quads.members \ (s.deletion e policy).after.quads.members) ∩
      lyingIn c.graphTerm = before \ after := Set.inter_sdiff_distrib_right ..
  have hmore : ((s.deletion e policy).after.quads.members \ s.contents.quads.members) ∩
      lyingIn c.graphTerm = after \ before := Set.inter_sdiff_distrib_right ..
  rw [haway, hmore, hempty, Set.sdiff_empty, Set.empty_sdiff] at hexchanges
  exact hexchanges

end

/-- In a live tracking session whose log has just been drained, deleting an entity
succeeds.  The log then lists one edit for each graph in which a quad with a blank node
is missing afterwards, on behalf of the entity: it states what remains in the graph, or
takes away all that the graph held if nothing remains.  Behind the edits come the
changes that drop the quads of an entity with an IRI and, if the policy says so, the
references to it.  Replaying all this on the quads before leads to the quads after. -/
theorem delete_recorded (hs : (start options).run (commands ++ [.takeChanges]) = s)
    (hlive : s.closed = false) (htracking : s.isTracking = true) (e : Entity)
    (policy : DeletePolicy) :
    ∃ t, s.delete e policy = .ok t ∧
      (∃ edits : List GraphEdit,
        t.changes = edits.map .inGraph ++
          (if e.isBlank then []
            else .dropEntity e :: if policy.nullifyReferences then [.dropReferences e] else []) ∧
        OnePerGraph edits e
          {graph | ∃ q ∈ (s.contents.quads.members \ t.contents.quads.members) ∩ lyingIn graph,
            q.involvesBlank = true} ∧
        ∀ c ∈ edits,
          let before := s.contents.quads.members ∩ lyingIn c.graphTerm
          let after := t.contents.quads.members ∩ lyingIn c.graphTerm
          (after.Nonempty → c.edit.States after) ∧ (after = ∅ → c.edit.Exchanges before ∅)) ∧
      t.Faithful s.contents.quads.primary := by
  have hrecorded := recorded_of_drained hs hlive htracking
  have h := hrecorded.consistent.contents
  obtain ⟨threadSafe, hlog⟩ := log_of_drained hs
  refine ⟨s.deleted e policy, delete_eq_ok.mpr ⟨hlive, rfl⟩, ⟨s.deletionEdits e policy, ?_, ?_, ?_⟩,
    ?_⟩
  · rw [changes_deleted htracking, editedLog, hlog]
    exact congrArg (· ++ dropsOf e policy) (ChangeLog.changes_addAll_graphEdits ..)
  · exact onePerGraph_deletionEdits h e policy
  · intro c hc
    exact of_mem_deletionEdits h hc
  · refine hrecorded.faithful_deleted fun q huncovers => ?_
    -- there is no overwrite that could be emptied
    obtain ⟨content, htarget⟩ := huncovers.overwritten
    rw [hlog] at htarget
    cases htarget

open Sample in
/-- A person is deleted who lives at an address that refers back, and whom a friend
knows. -/
theorem delete_recorded_person :
    let commands := [.load (.iri person) [fact (.iri person) livesAt (.blank address),
      fact (.blank address) knows (.iri person), fact (.iri friend) knows (.iri person)]]
    let s := (start {}).run (commands ++ [.takeChanges])
    s.closed = false ∧ s.isTracking = true ∧
      ∃ t, s.delete (.iri person) .references = .ok t ∧
        (∃ edits : List GraphEdit,
          t.changes = edits.map .inGraph ++
            [.dropEntity (.iri person), .dropReferences (.iri person)] ∧
          OnePerGraph edits (.iri person)
            {graph | ∃ q ∈ (s.contents.quads.members \ t.contents.quads.members) ∩ lyingIn graph,
              q.involvesBlank = true} ∧
          ∀ c ∈ edits,
            let before := s.contents.quads.members ∩ lyingIn c.graphTerm
            let after := t.contents.quads.members ∩ lyingIn c.graphTerm
            (after.Nonempty → c.edit.States after) ∧ (after = ∅ → c.edit.Exchanges before ∅)) ∧
        t.Faithful s.contents.quads.primary := by
  intro commands s
  have hlive : s.closed = false := by decide
  have htracking : s.isTracking = true := by decide
  exact ⟨hlive, htracking, delete_recorded rfl hlive htracking (.iri person) .references⟩

/-! ### Replacements -/

section

variable {e : Entity} {predicate : Node} {p : Predicate} {values : List Node}
  {graph : Option Node} {locale : Option Locale}

theorem graphTerm_eq_of_stating {predicate : Term} {graph : Option Term} {q : Quad}
    (hq : q ∈ Stating e predicate graph values) : q.graphTerm = graph := by
  obtain ⟨value, -, hstatement⟩ := hq
  exact congrArg Statement.graph hstatement

/-- A replacement gains the quads of the new values that were not there. -/
theorem listedIn_gained_replacement (s : Session) (e : Entity) (p : Predicate)
    (values : List Node) (graph : Option Node) (locale : Option Locale) :
    listedIn (s.replacement e p values graph locale).gained =
      Stating e p.term (graph.map Node.term) values \ s.contents.quads.members := by
  rw [← listedIn_quadsOfValues]
  ext q
  exact contains_gained_replacement

/-- With nothing in the log, the record of a replacement is wrong exactly if the graph
of the new values is left empty although some of them were gained. -/
theorem Recorded.faithful_replaced_iff_of_drained (h : s.Recorded s.contents.quads.primary)
    {threadSafe : Bool} (hlog : s.log = .new threadSafe) (e : Entity) (p : Predicate)
    (values : List Node) (graph : Option Node) (locale : Option Locale) :
    (s.replaced e p values graph locale).Faithful s.contents.quads.primary ↔
      ((Stating e p.term (graph.map Node.term) values \ s.contents.quads.members).Nonempty →
        ((s.replaced e p values graph locale).contents.quads.members ∩
          lyingIn (graph.map Node.term)).Nonempty) := by
  let m := s.replacement e p values graph locale
  have hm : m.Accounts s.contents.quads :=
    accounts_replacement h.consistent.contents e p values graph locale
  have hgained : ∀ q, m.gained.contains q = true ↔
      q ∈ Stating e p.term (graph.map Node.term) values \ s.contents.quads.members :=
    fun q => Set.ext_iff.mp (listedIn_gained_replacement s e p values graph locale) q
  have hmisses : ∀ g, GraphStack.Misses e g m.gained (s.log.latestFor g) ↔
      ∃ q, m.gained.contains q = true ∧ q.graphTerm = g := by
    intro g
    rw [hlog]
    exact GraphStack.misses_nil_iff
  constructor
  · rintro hfaithful ⟨q, hq⟩
    by_contra hnone
    have hin := graphTerm_eq_of_stating hq.1
    have hnothing : ∀ x, m.after.quads.contains x = true → x.graphTerm ≠ graph.map Node.term :=
      fun x hx hgraph => hnone ⟨x, hx, hgraph⟩
    have hlost : m.lost.contains q = true :=
      (hm.lost_iff q).mpr ⟨.inr ((hgained q).mpr hq), fun hleft => hnothing q hleft hin⟩
    have hmissed := (hmisses _).mpr ⟨q, (hgained q).mpr hq, hin⟩
    exact h.not_faithful_replaced ⟨⟨q, hlost, hin⟩, hnothing⟩ hmissed hfaithful
  · intro hshown
    refine (h.replaced fun g hclears hmissed => ?_).faithful
    obtain ⟨q, hq, rfl⟩ := (hmisses g).mp hmissed
    obtain ⟨x, hx, hin⟩ := hshown ⟨q, (hgained q).mp hq⟩
    exact hclears.nothing x hx (hin.trans (graphTerm_eq_of_stating ((hgained q).mp hq).1).symm)

/-- What a replacement for an entity with an IRI has gained remains in its graph. -/
theorem nonempty_after_of_gained (h : s.contents.Consistent) (he : e.isBlank = false)
    (hgained : (Stating e p.term (graph.map Node.term) values \
      s.contents.quads.members).Nonempty) :
    ((s.replaced e p values graph locale).contents.quads.members ∩
      lyingIn (graph.map Node.term)).Nonempty := by
  obtain ⟨q, hq, -⟩ := hgained
  have hgraph : q.graphTerm = graph.map Node.term := graphTerm_eq_of_stating hq
  rw [← listedIn_quadsOfValues] at hq
  exact ⟨q, contains_after_of_stated h he hq, hgraph⟩

/-- After a replacement in a session whose log has just been drained, replaying the log
on the quads before leads to the quads after, if the entity has an IRI.  For any entity
it does so if and only if none of the new values is stated by a quad that was not there,
or something remains in the graph in which they are stated. -/
theorem faithful_replace_iff (hs : (start options).run (commands ++ [.takeChanges]) = s)
    (htracking : s.isTracking = true)
    (ht : s.perform (.replace e predicate values graph locale) = .ok t) :
    (e.isBlank = false → t.Faithful s.contents.quads.primary) ∧
      (t.Faithful s.contents.quads.primary ↔
        ((Stating e predicate.term (graph.map Node.term) values \
            s.contents.quads.members).Nonempty →
          (t.contents.quads.members ∩ lyingIn (graph.map Node.term)).Nonempty)) := by
  obtain ⟨hlive, p, rfl, rfl⟩ := replace_eq_ok.mp ht
  obtain ⟨threadSafe, hlog⟩ := log_of_drained hs
  have h := recorded_of_drained hs hlive htracking
  have hiff := h.faithful_replaced_iff_of_drained hlog e p values graph locale
  exact ⟨fun he => hiff.mpr (nonempty_after_of_gained h.consistent.contents he), hiff⟩

open Sample in
/-- An address that refers to itself comes to know a person instead. -/
theorem faithful_replace_iff_address :
    let commands := [.load (.blank address) [fact (.blank address) knows (.blank address)]]
    let s := (start {}).run (commands ++ [.takeChanges])
    let predicate := Node.ofTerm (.iri knows)
    let values := [Node.ofTerm (.iri person)]
    s.isTracking = true ∧
      ∃ t, s.perform (.replace (.blank address) predicate values none none) = .ok t ∧
        ((Entity.blank address).isBlank = false → t.Faithful s.contents.quads.primary) ∧
        (t.Faithful s.contents.quads.primary ↔
          ((Stating (.blank address) predicate.term none values \
              s.contents.quads.members).Nonempty →
            (t.contents.quads.members ∩ lyingIn none).Nonempty)) := by
  intro commands s predicate values
  have htracking : s.isTracking = true := by decide
  obtain ⟨t, ht⟩ :
      ∃ t, s.perform (.replace (.blank address) predicate values none none) = .ok t :=
    ⟨_, replace_eq_ok.mpr ⟨by decide, ⟨predicate, rfl⟩, rfl, rfl⟩⟩
  exact ⟨htracking, t, ht, faithful_replace_iff rfl htracking ht⟩

open Sample in
/-- The record of the same replacement adds the new value, although the address, to
which nothing refers any more, is gone with all it had. -/
theorem not_faithful_replace_address :
    let commands := [.load (.blank address) [fact (.blank address) knows (.blank address)]]
    let s := (start {}).run (commands ++ [.takeChanges])
    ∃ t, s.closed = false ∧ s.isTracking = true ∧
      s.perform (.replace (.blank address) (.ofTerm (.iri knows)) [.ofTerm (.iri person)]
        none none) = .ok t ∧ ¬ t.Faithful s.contents.quads.primary := by
  intro commands s
  let p : Predicate := ⟨.ofTerm (.iri knows), rfl⟩
  let values := [Node.ofTerm (.iri person)]
  let removed := (s.cleared (.blank address) p none none).1
  let middle := (s.restated (.blank address) p values none none).2
  let t := s.replaced (.blank address) p values none none
  have hlive : s.closed = false := by decide
  have htracking : s.isTracking = true := by decide
  have hdetached : t.contents = (middle.detach (.blank address)).2 := by
    have hvisits : Visit.orphans removed = [⟨address, false⟩] := by decide
    have hdue : middle.isDue ⟨address, false⟩ = true := by decide
    have hfollowing : Visit.following (.blank address) false
        (middle.detach (.blank address)).1 = [] := by decide +kernel
    show (middle.sweep (Visit.orphans removed)).2 = _
    rw [hvisits, Contents.sweep, if_pos hdue]
    simp only [hfollowing, List.append_nil, Contents.sweep]
  have hnone : t.contents.quads.quads = [] := by
    rw [hdetached]
    decide +kernel
  refine ⟨t, hlive, htracking, replace_eq_ok.mpr ⟨hlive, p, rfl, rfl⟩, fun hfaithful => ?_⟩
  have h := recorded_of_drained rfl hlive htracking
  have hnew : ¬ s.contents.quads.contains (fact (.blank address) knows (.iri person)) = true := by
    decide
  have hgained : fact (.blank address) knows (.iri person) ∈
      Stating (.blank address) p.term none values \ s.contents.quads.members :=
    ⟨⟨_, List.mem_singleton_self _, rfl⟩, hnew⟩
  obtain ⟨q, hq, -⟩ :=
    (h.faithful_replaced_iff_of_drained rfl _ p values none none).mp hfaithful ⟨_, hgained⟩
  obtain ⟨x, hx, -⟩ := Dataset.exists_mem_quads hq
  rw [hnone] at hx
  cases hx

/-! ### Replacements for an entity with an IRI -/

/-- An entity with an IRI keeps what it gains. -/
theorem exact_replacement (h : s.contents.Consistent) (he : e.isBlank = false) (p : Predicate)
    (values : List Node) (graph : Option Node) (locale : Option Locale) :
    (s.replacement e p values graph locale).Exact s.contents.quads :=
  (accounts_replacement h e p values graph locale).exact fun _ hq => not_lost_of_gained h he hq

theorem changes_replaced_of_drained (htracking : s.isTracking = true) {threadSafe : Bool}
    (hlog : s.log = .new threadSafe) :
    let m := s.replacement e p values graph locale
    (s.replaced e p values graph locale).changes =
      (graphEdits m.after.quads e m.lost m.gained).map .inGraph := by
  intro m
  rw [changes, replaced_eq, htracking, if_pos rfl, hlog, editsOf_eq]
  exact ChangeLog.changes_addAll_graphEdits ..

/-- After a replacement for an entity with an IRI in a session whose log has just been
drained, the log lists one edit for each graph whose quads have changed, on behalf of
the entity.  If a quad with a blank node is missing from the graph and something
remains there, the edit states what remains.  Else it exchanges the quads that are
missing for the new ones. -/
theorem replace_recorded (hs : (start options).run (commands ++ [.takeChanges]) = s)
    (htracking : s.isTracking = true) (he : e.isBlank = false)
    (ht : s.perform (.replace e predicate values graph locale) = .ok t) :
    let before := s.contents.quads.members
    let after := t.contents.quads.members
    ∃ edits : List GraphEdit, t.changes = edits.map .inGraph ∧
      OnePerGraph edits e {g | before ∩ lyingIn g ≠ after ∩ lyingIn g} ∧
      ∀ c ∈ edits,
        let g := lyingIn c.graphTerm
        let restated := (∃ q ∈ (before \ after) ∩ g, q.involvesBlank = true) ∧ (after ∩ g).Nonempty
        (restated → c.edit.States (after ∩ g)) ∧
          (¬ restated → c.edit.Exchanges ((before \ after) ∩ g) ((after \ before) ∩ g)) := by
  obtain ⟨hlive, p, rfl, rfl⟩ := replace_eq_ok.mp ht
  obtain ⟨threadSafe, hlog⟩ := log_of_drained hs
  have h := (recorded_of_drained hs hlive htracking).consistent.contents
  let m := s.replacement e p values graph locale
  have hm : m.Exact s.contents.quads := exact_replacement h he p values graph locale
  intro before after
  refine ⟨graphEdits m.after.quads e m.lost m.gained, changes_replaced_of_drained htracking hlog,
    hm.onePerGraph e, fun c hc => ?_⟩
  intro g restated
  rw [(of_mem_graphEdits hc).2]
  constructor
  · rintro ⟨htouched, hleft⟩
    exact states_editOf (hm.blankIn_lost_iff.mpr htouched) hleft
  · intro hnot
    refine hm.exchanges_editOf ?_
    rw [← Bool.not_eq_true, hm.blankIn_lost_iff, ← Set.not_nonempty_iff_eq_empty]
    exact not_and_or.mp hnot

open Sample in
/-- A person moves from an address, which goes with what it had, to where a friend is. -/
theorem replace_recorded_person :
    let commands := [.load (.iri person) [fact (.iri person) livesAt (.blank address),
      fact (.blank address) knows (.iri person), fact (.iri person) knows (.iri friend)]]
    let s := (start {}).run (commands ++ [.takeChanges])
    let command := Command.replace (.iri person) (.ofTerm (.iri livesAt))
      [.ofTerm (.iri friend)] none none
    s.isTracking = true ∧ (Entity.iri person).isBlank = false ∧ ∃ t, s.perform command = .ok t ∧
      let before := s.contents.quads.members
      let after := t.contents.quads.members
      ∃ edits : List GraphEdit, t.changes = edits.map .inGraph ∧
        OnePerGraph edits (.iri person) {g | before ∩ lyingIn g ≠ after ∩ lyingIn g} ∧
        ∀ c ∈ edits,
          let g := lyingIn c.graphTerm
          let restated :=
            (∃ q ∈ (before \ after) ∩ g, q.involvesBlank = true) ∧ (after ∩ g).Nonempty
          (restated → c.edit.States (after ∩ g)) ∧
            (¬ restated → c.edit.Exchanges ((before \ after) ∩ g) ((after \ before) ∩ g)) := by
  intro commands s command
  have htracking : s.isTracking = true := by decide
  obtain ⟨t, ht⟩ : ∃ t, s.perform command = .ok t :=
    ⟨_, replace_eq_ok.mpr ⟨by decide, ⟨.ofTerm (.iri livesAt), rfl⟩, rfl, rfl⟩⟩
  exact ⟨htracking, rfl, t, ht, replace_recorded rfl htracking rfl ht⟩

end

end Session

end QuadSession

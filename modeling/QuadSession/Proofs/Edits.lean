import QuadSession.Proofs.Indexed
import QuadSession.Proofs.Replay
import QuadSession.Session.Record

/-!
# The edits that record a mutation

A mutation is recorded by one edit for each graph in which it lost or gained a
quad.  This file says which edit that is, that it names only quads of its graph and
is never empty, and what logging these edits does to the stacks of a log.

## Main statements

* `editOf_cases`: the edit of a graph is an overwrite if a quad with a blank node was
  lost in it and something remains, and else an update.
* `ChangeLog.Tidy.logged_editsOf`: each edit is pushed on the stack of its graph, and
  the other stacks stay as they are.
-/

namespace QuadSession

theorem Quad.involvesBlank_eq_of_beq {a b : Quad} (h : (a == b) = true) :
    a.involvesBlank = b.involvesBlank := by
  rw [involvesBlank, involvesBlank, owner_eq_of_statement_eq (beq_iff.mp h), Node.isBlank,
    Node.isBlank, object_eq_of_beq h]

/-! ## The quads of a graph -/

theorem contains_inGraph (graph : Option Term) (quads : List Quad) (q : Quad) :
    (Session.inGraph graph quads).contains q = (quads.contains q && q.graphTerm == graph) := by
  refine Quads.contains_filter_list fun a b hab => ?_
  rw [Quad.graphTerm_eq_of_beq hab]

theorem Dataset.contains_inGraph (d : Dataset) (graph : Option Term) (q : Quad) :
    (d.inGraph graph).contains q = (d.contains q && q.graphTerm == graph) := by
  have hfilter := QuadSession.contains_inGraph graph d.quads q
  rw [Dataset.contains_quads] at hfilter
  exact hfilter

theorem blankIn_iff {quads : List Quad} {graph : Option Term} :
    Session.blankIn quads graph = true ↔
      ∃ q, quads.contains q = true ∧ q.involvesBlank = true ∧ q.graphTerm = graph := by
  unfold Session.blankIn
  rw [List.any_eq_true]
  constructor
  · intro hany
    obtain ⟨q, hq, htest⟩ := hany
    rw [Bool.and_eq_true, beq_iff_eq] at htest
    exact ⟨q, Quads.contains_of_mem hq, htest⟩
  · intro hexists
    obtain ⟨q, hq, hblank, hgraph⟩ := hexists
    obtain ⟨x, hx, hqx⟩ := List.contains_iff_exists_mem_beq.mp hq
    refine ⟨x, hx, ?_⟩
    rw [← Quad.involvesBlank_eq_of_beq hqx, ← Quad.graphTerm_eq_of_beq hqx, hblank, hgraph,
      beq_self_eq_true, Bool.and_true]

/-! ## The edit of a graph -/

section

variable {d : Dataset} {lost gained : List Quad} {graph : Option Term}

/-- The edit states the content of the graph if a quad with a blank node was lost in
it and something remains. -/
theorem editOf_eq_overwrite (hblank : Session.blankIn lost graph = true) {x : Quad}
    (hx : d.contains x = true) (hgraph : x.graphTerm = graph) :
    Session.editOf d lost gained graph = .overwrite (Quads.ofList (d.inGraph graph)) := by
  have hcontent : (d.inGraph graph).contains x = true := by
    rw [Dataset.contains_inGraph, hx, hgraph, beq_self_eq_true, Bool.and_true]
  have hne : ¬ (d.inGraph graph).isEmpty = true := by
    intro hempty
    rw [List.isEmpty_iff.mp hempty] at hcontent
    exact Bool.noConfusion hcontent
  simp only [Session.editOf, hblank, if_true]
  exact if_neg hne

theorem editOf_eq_update
    (h : Session.blankIn lost graph = false ∨ ∀ q, d.contains q = true → q.graphTerm ≠ graph) :
    Session.editOf d lost gained graph =
      .update (Quads.ofList (Session.inGraph graph lost))
        (Quads.ofList (Session.inGraph graph gained)) := by
  simp only [Session.editOf]
  refine if_pos ?_
  split
  · rename_i hblank
    have hempty := h.resolve_left (Bool.not_eq_false _ ▸ hblank)
    rw [List.isEmpty_iff, List.eq_nil_iff_forall_not_mem]
    intro q hq
    have hin : (d.inGraph graph).contains q = true :=
      Quads.contains_of_mem hq
    rw [Dataset.contains_inGraph, Bool.and_eq_true, beq_iff_eq] at hin
    exact hempty q hin.1 hin.2
  · rfl

/-- Which of the two edits is made. -/
theorem editOf_cases (d : Dataset) (lost gained : List Quad) (graph : Option Term) :
    (Session.blankIn lost graph = true ∧ (∃ x, d.contains x = true ∧ x.graphTerm = graph) ∧
      Session.editOf d lost gained graph = .overwrite (Quads.ofList (d.inGraph graph))) ∨
    ((Session.blankIn lost graph = false ∨ ∀ q, d.contains q = true → q.graphTerm ≠ graph) ∧
      Session.editOf d lost gained graph =
        .update (Quads.ofList (Session.inGraph graph lost))
          (Quads.ofList (Session.inGraph graph gained))) := by
  by_cases hblank : Session.blankIn lost graph = true
  · by_cases hleft : ∃ x, d.contains x = true ∧ x.graphTerm = graph
    · obtain ⟨x, hx, hgraph⟩ := hleft
      exact .inl ⟨hblank, ⟨x, hx, hgraph⟩, editOf_eq_overwrite hblank hx hgraph⟩
    · have hnone : ∀ q, d.contains q = true → q.graphTerm ≠ graph :=
        fun q hq hgraph => hleft ⟨q, hq, hgraph⟩
      exact .inr ⟨.inr hnone, editOf_eq_update (.inr hnone)⟩
  · rw [Bool.not_eq_true] at hblank
    exact .inr ⟨.inl hblank, editOf_eq_update (.inl hblank)⟩

theorem editOf_liesIn : (Session.editOf d lost gained graph).LiesIn graph := by
  rcases editOf_cases d lost gained graph with ⟨-, -, hedit⟩ | ⟨-, hedit⟩
  · rw [hedit]
    intro q hq
    rw [Quads.contains_ofList, Dataset.contains_inGraph, Bool.and_eq_true, beq_iff_eq] at hq
    exact hq.2
  · rw [hedit]
    intro q hq
    simp only [Quads.contains_ofList, contains_inGraph, Bool.and_eq_true, beq_iff_eq] at hq
    rcases hq with hlost | hgained
    · exact hlost.2
    · exact hgained.2

/-- A graph in which something was lost or gained has an edit that is not empty. -/
theorem isEmpty_editOf {q : Quad} (hq : lost.contains q = true ∨ gained.contains q = true)
    (hgraph : q.graphTerm = graph) : (Session.editOf d lost gained graph).isEmpty = false := by
  rw [Bool.eq_false_iff]
  intro hempty
  rcases editOf_cases d lost gained graph with ⟨-, ⟨x, hx, hin⟩, hedit⟩ | ⟨-, hedit⟩
  · rw [hedit, Edit.isEmpty, Std.TreeSet.isEmpty_iff_forall_contains] at hempty
    have hmissing := hempty x
    rw [Quads.contains_ofList, Dataset.contains_inGraph, hx, hin, beq_self_eq_true] at hmissing
    exact Bool.noConfusion hmissing
  · rw [hedit, Edit.isEmpty_iff_of_update] at hempty
    have hmissing := hempty q
    simp only [Quads.contains_ofList, contains_inGraph, hgraph, beq_self_eq_true, Bool.and_true]
      at hmissing
    rcases hq with hlost | hgained
    · exact Bool.false_ne_true (hmissing.1.symm.trans hlost)
    · exact Bool.false_ne_true (hmissing.2.symm.trans hgained)

end

/-! ## One edit for each graph -/

theorem beq_option_iff {a b : Option Node} :
    (a == b) = true ↔ a.map Node.term = b.map Node.term := by
  cases a with
  | none => cases b <;> simp
  | some m =>
      cases b with
      | none => simp
      | some n => exact Node.beq_iff.trans (by simp)

theorem mem_graphsOf {quads : List Quad} {graph : Option Term} :
    graph ∈ (Session.graphsOf quads).map (Option.map Node.term) ↔
      ∃ q, quads.contains q = true ∧ q.graphTerm = graph := by
  have hlisted : ∀ node : Option Node, (Session.graphsOf quads).contains node = true ↔
      ∃ q ∈ quads, q.graphTerm = node.map Node.term := by
    intro node
    rw [Session.graphsOf, contains_distinct, List.contains_iff_exists_mem_beq]
    constructor
    · intro hexists
      obtain ⟨other, hother, heq⟩ := hexists
      obtain ⟨q, hq, rfl⟩ := List.mem_map.mp hother
      exact ⟨q, hq, (beq_option_iff.mp heq).symm⟩
    · intro hexists
      obtain ⟨q, hq, hgraph⟩ := hexists
      exact ⟨q.graph, List.mem_map_of_mem hq, beq_option_iff.mpr hgraph.symm⟩
  rw [List.mem_map]
  constructor
  · intro hmap
    obtain ⟨node, hnode, rfl⟩ := hmap
    obtain ⟨q, hq, hgraph⟩ := (hlisted node).mp
      (List.contains_iff_exists_mem_beq.mpr ⟨node, hnode, BEq.refl node⟩)
    exact ⟨q, Quads.contains_of_mem hq, hgraph⟩
  · intro hexists
    obtain ⟨q, hq, rfl⟩ := hexists
    obtain ⟨x, hx, hqx⟩ := List.contains_iff_exists_mem_beq.mp hq
    obtain ⟨node, hnode, heq⟩ := List.contains_iff_exists_mem_beq.mp
      ((hlisted x.graph).mpr ⟨x, hx, rfl⟩)
    refine ⟨node, hnode, ?_⟩
    rw [Quad.graphTerm_eq_of_beq hqx]
    exact (beq_option_iff.mp heq).symm

theorem nodup_graphsOf (quads : List Quad) :
    ((Session.graphsOf quads).map (Option.map Node.term)).Nodup := by
  have hascending := pairwise_distinct (quads.map Quad.graph)
  refine List.pairwise_map.mpr (hascending.imp fun {a b} hlt heq => ?_)
  have hsame := Std.LawfulBEqOrd.compare_eq_iff_beq.mpr (beq_option_iff.mpr heq)
  rw [hlt] at hsame
  exact Ordering.noConfusion hsame

/-- The edits that record a mutation of the entity. -/
def graphEdits (d : Dataset) (e : Entity) (lost gained : List Quad) : List GraphEdit :=
  (Session.graphsOf (lost ++ gained)).map fun graph =>
    ⟨e, graph, Session.editOf d lost gained (graph.map Node.term)⟩

section

variable {d : Dataset} {e : Entity} {lost gained : List Quad} {graph : Option Term}

theorem editsOf_eq (d : Dataset) (e : Entity) (lost gained : List Quad) :
    Session.editsOf d e lost gained = (graphEdits d e lost gained).map .inGraph := by
  rw [graphEdits, List.map_map]
  rfl

theorem graphTerms_graphEdits (d : Dataset) (e : Entity) (lost gained : List Quad) :
    (graphEdits d e lost gained).map GraphEdit.graphTerm =
      (Session.graphsOf (lost ++ gained)).map (Option.map Node.term) := by
  rw [graphEdits, List.map_map]
  rfl

theorem mem_graphTerms_graphEdits :
    graph ∈ (graphEdits d e lost gained).map GraphEdit.graphTerm ↔
      ∃ q, (lost.contains q = true ∨ gained.contains q = true) ∧ q.graphTerm = graph := by
  rw [graphTerms_graphEdits, mem_graphsOf]
  simp only [List.contains_append, Bool.or_eq_true]

theorem of_mem_graphEdits {c : GraphEdit} (hc : c ∈ graphEdits d e lost gained) :
    c.entity = e ∧ c.edit = Session.editOf d lost gained c.graphTerm := by
  obtain ⟨node, -, rfl⟩ := List.mem_map.mp hc
  exact ⟨rfl, rfl⟩

/-- A mutation that loses nothing and gains nothing is not recorded. -/
theorem editsOf_eq_nil (hlost : ∀ q, ¬ lost.contains q = true)
    (hgained : ∀ q, ¬ gained.contains q = true) : Session.editsOf d e lost gained = [] := by
  have hnone : graphEdits d e lost gained = [] := by
    refine List.eq_nil_iff_forall_not_mem.mpr fun c hc => ?_
    obtain ⟨q, hq, -⟩ := mem_graphTerms_graphEdits.mp (List.mem_map_of_mem hc)
    exact hq.elim (hlost q) (hgained q)
  rw [editsOf_eq, hnone]
  rfl

end

/-! ## Logging a record -/

namespace ChangeLog

variable {log next : ChangeLog} {edits : List GraphEdit}

/-- The edits, all of different graphs, were logged. -/
structure Logged (log : ChangeLog) (edits : List GraphEdit) (next : ChangeLog) : Prop where
  tidy : next.Tidy
  settled_eq : next.settled = log.settled
  pushed : ∀ c ∈ edits,
    next.latestFor c.graphTerm = GraphStack.push (log.latestFor c.graphTerm) c
  kept : ∀ graph ∉ edits.map GraphEdit.graphTerm, next.latestFor graph = log.latestFor graph

theorem Tidy.logged (h : log.Tidy) (hdistinct : (edits.map GraphEdit.graphTerm).Nodup)
    (hedits : ∀ c ∈ edits, c.isEmpty = false ∧ c.edit.LiesIn c.graphTerm) :
    log.Logged edits (log.addAll (edits.map .inGraph)) := by
  induction edits generalizing log with
  | nil => exact ⟨h, rfl, List.forall_mem_nil _, fun graph _ => rfl⟩
  | cons c rest ih =>
      rw [List.map_cons, List.nodup_cons] at hdistinct
      obtain ⟨⟨hempty, hlies⟩, hrest⟩ := List.forall_mem_cons.mp hedits
      have hlogged := ih (h.add_inGraph hempty hlies) hdistinct.2 hrest
      have hlatest := log.latestFor_add_inGraph hempty
      refine ⟨hlogged.tidy, hlogged.settled_eq.trans (log.settled_add_inGraph hempty), ?_, ?_⟩
      · intro d hd
        rcases List.mem_cons.mp hd with rfl | hd
        · have hpushed := hlatest d.graphTerm
          rw [if_pos rfl] at hpushed
          exact (hlogged.kept d.graphTerm hdistinct.1).trans hpushed
        · have hne : c.graphTerm ≠ d.graphTerm :=
            fun heq => hdistinct.1 (heq ▸ List.mem_map_of_mem hd)
          have hkept := hlatest d.graphTerm
          rw [if_neg hne] at hkept
          have hpushed := hlogged.pushed d hd
          rw [hkept] at hpushed
          exact hpushed
      · intro graph hgraph
        rw [List.map_cons, List.mem_cons, not_or] at hgraph
        have hkept := hlatest graph
        rw [if_neg (Ne.symm hgraph.1)] at hkept
        exact (hlogged.kept graph hgraph.2).trans hkept

theorem Tidy.logged_editsOf (h : log.Tidy) (d : Dataset) (e : Entity) (lost gained : List Quad) :
    log.Logged (graphEdits d e lost gained) (log.addAll (Session.editsOf d e lost gained)) := by
  rw [editsOf_eq]
  refine h.logged ?_ fun c hc => ?_
  · rw [graphTerms_graphEdits]
    exact nodup_graphsOf _
  · have hedit := (of_mem_graphEdits hc).2
    obtain ⟨q, hq, hgraph⟩ := mem_graphTerms_graphEdits.mp (List.mem_map_of_mem hc)
    rw [GraphEdit.isEmpty, hedit]
    exact ⟨isEmpty_editOf hq hgraph, editOf_liesIn⟩

end ChangeLog

end QuadSession

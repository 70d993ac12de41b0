import QuadSession.Change.Replay
import QuadSession.ChangeLog

/-!
# What a log says when it is replayed

A log folds edits into each other and lists them graph by graph, so what it
lists is not what was logged.  This file proves when it still says the same.

## Strategy

The edits of one graph leave the quads of every other graph alone.  A quad is
therefore decided by the settled changes and by the stack of its own graph
(`ChangeLog.contains_replay_changes`), and the order of the stacks drops out.

Within a stack an update is composed with the edit below it.  That is sound if
updates are exact: they take away only quads that are there and add only quads
that are not (`Edit.contains_apply_merged`).  Exactness is kept by composition,
so it can be carried along a stack (`GraphStack.Exact`).

What breaks the replay is an overwrite that is left without content.  Being
empty, it is dropped, and the edits below it count again
(`GraphStack.contains_result_push` excludes just this).

## Main statements

* `GraphStack.contains_result_push`: pushing an exact edit on a stack of exact
  edits carries the edit out, unless it empties an overwrite.
* `ChangeLog.contains_replay_changes`: a quad is decided by the settled changes
  and the stack of its graph.
-/

namespace QuadSession

/-! ## One edit -/

namespace Edit

variable {graph : Option Term} {removed added content s t : Quads} {edit : Edit} {q : Quad}

/-- Every quad that the edit names lies in the graph. -/
def LiesIn (graph : Option Term) : Edit → Prop
  | update removed added =>
    ∀ q : Quad, removed.contains q = true ∨ added.contains q = true → q.graphTerm = graph
  | overwrite content => ∀ q : Quad, content.contains q = true → q.graphTerm = graph

/-- The edit takes away only quads that are there and adds only quads that are
not. -/
def ExactOn (s : Quads) : Edit → Prop
  | update removed added =>
    (∀ q : Quad, removed.contains q = true → s.contains q = true) ∧
      ∀ q : Quad, added.contains q = true → s.contains q = false
  | overwrite _ => True

/-! Both can be checked on the members that the sets list. -/

instance (graph : Option Term) : (edit : Edit) → Decidable (edit.LiesIn graph)
  | update removed added =>
    have hgraph : ∀ a b : Quad, (a == b) = true → b.graphTerm = graph → a.graphTerm = graph :=
      fun _ _ hab hb => (Quad.graphTerm_eq_of_beq hab).trans hb
    decidable_of_iff
      ((∀ q ∈ removed.toList, q.graphTerm = graph) ∧ ∀ q ∈ added.toList, q.graphTerm = graph) <| by
        rw [← Quads.forall_contains_iff hgraph, ← Quads.forall_contains_iff hgraph]
        simp only [LiesIn, or_imp, forall_and]
  | overwrite content =>
    have hgraph : ∀ a b : Quad, (a == b) = true → b.graphTerm = graph → a.graphTerm = graph :=
      fun _ _ hab hb => (Quad.graphTerm_eq_of_beq hab).trans hb
    decidable_of_iff (∀ q ∈ content.toList, q.graphTerm = graph)
      (Quads.forall_contains_iff hgraph).symm

instance (s : Quads) : (edit : Edit) → Decidable (edit.ExactOn s)
  | update removed added =>
    have hin : ∀ value, ∀ a b : Quad, (a == b) = true → s.contains b = value →
        s.contains a = value :=
      fun _ _ _ hab hb => (Quads.contains_congr hab).trans hb
    decidable_of_iff
      ((∀ q ∈ removed.toList, s.contains q = true) ∧ ∀ q ∈ added.toList, s.contains q = false) <|
        and_congr (Quads.forall_contains_iff (hin true)).symm
          (Quads.forall_contains_iff (hin false)).symm
  | overwrite _ => .isTrue trivial

/-- What an edit makes of a quad depends on nothing but this quad. -/
theorem contains_apply_congr (edit : Edit) (h : s.contains q = t.contains q) :
    (edit.apply graph s).contains q = (edit.apply graph t).contains q := by
  cases edit with
  | update removed added => rw [contains_apply_update, contains_apply_update, h]
  | overwrite content => rw [contains_apply_overwrite, contains_apply_overwrite, h]

/-- An edit leaves the quads of other graphs alone. -/
theorem LiesIn.contains_apply_of_ne (h : edit.LiesIn graph) (hq : q.graphTerm ≠ graph)
    (s : Quads) : (edit.apply graph s).contains q = s.contains q := by
  cases edit with
  | update removed added =>
      have hremoved : removed.contains q = false :=
        Bool.eq_false_iff.mpr fun hin => hq (h q (.inl hin))
      have hadded : added.contains q = false :=
        Bool.eq_false_iff.mpr fun hin => hq (h q (.inr hin))
      rw [contains_apply_update, hremoved, hadded, Bool.not_false, Bool.and_true, Bool.or_false]
  | overwrite content =>
      have hcontent : content.contains q = false := Bool.eq_false_iff.mpr fun hin => hq (h q hin)
      rw [contains_apply_overwrite, hcontent, bne_iff_ne.mpr hq, Bool.and_true, Bool.or_false]

/-! ## Two edits in one -/

variable {earlier later merged : Edit}

theorem LiesIn.merge? (hearlier : earlier.LiesIn graph) (hlater : later.LiesIn graph)
    (hmerged : earlier.merge? later = some merged) : merged.LiesIn graph := by
  cases earlier with
  | overwrite content =>
      cases later with
      | overwrite content' =>
          cases hmerged
          exact hlater
      | update removed added =>
          cases hmerged
          intro q hq
          have hcontent := hearlier q
          have hnamed := hlater q
          simp only [Quads.contains_union, Quads.contains_diff] at hq
          grind
  | update removed added =>
      cases later with
      | overwrite content => cases hmerged
      | update removed' added' =>
          cases hmerged
          intro q hq
          have hnamed := hearlier q
          have hnamed' := hlater q
          simp only [Quads.contains_union, Quads.contains_diff] at hq
          grind

/-- Exact edits compose to an exact edit. -/
theorem ExactOn.merge? (hearlier : earlier.ExactOn s)
    (hlater : later.ExactOn (earlier.apply graph s))
    (hmerged : earlier.merge? later = some merged) : merged.ExactOn s := by
  cases earlier with
  | overwrite content => cases later <;> cases hmerged <;> trivial
  | update removed added =>
      cases later with
      | overwrite content => cases hmerged
      | update removed' added' =>
          cases hmerged
          -- what the later edit takes back is named by neither half
          constructor
          · intro q hq
            have htaken := hearlier.1 q
            have htaken' := hlater.1 q
            rw [contains_apply_update] at htaken'
            simp only [Quads.contains_union, Quads.contains_diff] at hq
            grind
          · intro q hq
            have hnew := hearlier.2 q
            have hnew' := hlater.2 q
            rw [contains_apply_update] at hnew'
            simp only [Quads.contains_union, Quads.contains_diff] at hq
            grind

/-- The composed edit does what the two edits do one after the other. -/
theorem contains_apply_merged (hlies : earlier.LiesIn graph) (hlies' : later.LiesIn graph)
    (hearlier : earlier.ExactOn s) (hlater : later.ExactOn (earlier.apply graph s))
    (hmerged : earlier.merge? later = some merged) (q : Quad) :
    (merged.apply graph s).contains q =
      (later.apply graph (earlier.apply graph s)).contains q := by
  cases earlier with
  | overwrite content =>
      cases later with
      | overwrite content' =>
          cases hmerged
          have hcontent := hlies q
          simp only [contains_apply_overwrite]
          grind
      | update removed added =>
          cases hmerged
          -- in other graphs the update takes nothing away
          have hremoved := hlies' q
          simp only [contains_apply_overwrite, contains_apply_update, Quads.contains_union,
            Quads.contains_diff]
          grind
  | update removed added =>
      cases later with
      | overwrite content => cases hmerged
      | update removed' added' =>
          cases hmerged
          have hearlier₁ := hearlier.1 q
          have hearlier₂ := hearlier.2 q
          have hlater₁ := hlater.1 q
          have hlater₂ := hlater.2 q
          simp only [contains_apply_update, Quads.contains_union, Quads.contains_diff] at *
          grind

theorem isEmpty_iff_of_update :
    (update removed added).isEmpty = true ↔
      ∀ q : Quad, removed.contains q = false ∧ added.contains q = false := by
  rw [isEmpty, Bool.and_eq_true, Std.TreeSet.isEmpty_iff_forall_contains,
    Std.TreeSet.isEmpty_iff_forall_contains]
  exact forall_and.symm

/-- An empty update does nothing. -/
theorem contains_apply_of_isEmpty (h : (update removed added).isEmpty = true) (q : Quad) :
    ((update removed added).apply graph s).contains q = s.contains q := by
  obtain ⟨hremoved, hadded⟩ := isEmpty_iff_of_update.mp h q
  rw [contains_apply_update, hremoved, hadded, Bool.not_false, Bool.and_true, Bool.or_false]

end Edit

/-! ## The edits of a graph -/

namespace GraphEdit

/-- The edit is one of the given graph and names only quads of it. -/
structure Fits (c : GraphEdit) (graph : Option Term) : Prop where
  graph_eq : c.graphTerm = graph
  lies : c.edit.LiesIn graph

/-- What it means that two changes are folded into one. -/
structure FoldsTo (earlier later merged : GraphEdit) : Prop where
  entity_eq : earlier.entity = later.entity
  graph_eq : earlier.graphTerm = later.graphTerm
  entity_merged : merged.entity = later.entity
  graph_merged : merged.graphTerm = later.graphTerm
  merge?_eq : earlier.edit.merge? later.edit = some merged.edit

variable {earlier later merged : GraphEdit} {graph : Option Term}

theorem foldsTo_of_merge? (h : earlier.merge? later = some merged) :
    earlier.FoldsTo later merged := by
  unfold GraphEdit.merge? at h
  split at h
  · rename_i habsorbs
    simp only [GraphEdit.absorbs, Bool.and_eq_true, beq_iff_eq] at habsorbs
    obtain ⟨⟨-, hentity⟩, hgraph⟩ := habsorbs
    split at h
    · rename_i content content' hedit hedit'
      cases h
      refine ⟨hentity, hgraph, rfl, rfl, ?_⟩
      rw [hedit, hedit']
      rfl
    · obtain ⟨edit, hmerged, rfl⟩ := Option.map_eq_some_iff.mp h
      exact ⟨hentity, hgraph, hentity, hgraph, hmerged⟩
  · cases h

theorem FoldsTo.fits (h : earlier.FoldsTo later merged) (hearlier : earlier.Fits graph)
    (hlater : later.Fits graph) : merged.Fits graph where
  graph_eq := h.graph_merged.trans hlater.graph_eq
  lies := hearlier.lies.merge? hlater.lies h.merge?_eq

/-- An update is folded into whatever the same entity did to the same graph
before. -/
theorem exists_merge?_of_update {removed added : Quads}
    (hupdate : later.edit = .update removed added) (hentity : earlier.entity = later.entity)
    (hgraph : earlier.graphTerm = later.graphTerm) :
    ∃ merged, earlier.merge? later = some merged := by
  rw [← Option.isSome_iff_exists, isSome_merge?, GraphEdit.absorbs, hentity, hgraph, hupdate]
  cases earlier.edit <;> simp [Edit.absorbs]

end GraphEdit

namespace GraphStack

/-- What the edits of a stack, the latest first, make of a set of quads. -/
def result (base : Quads) : List GraphEdit → Quads
  | [] => base
  | c :: below => c.edit.apply c.graphTerm (result base below)

/-- Every edit of the stack is exact on what those below it make of the set. -/
def Exact (base : Quads) : List GraphEdit → Prop
  | [] => True
  | c :: below => c.edit.ExactOn (result base below) ∧ Exact base below

/-- The edit can be folded into the top of the stack, and what comes of it is an
overwrite without content. -/
def Empties (latest : List GraphEdit) (c : GraphEdit) : Prop :=
  ∃ top below merged content, latest = top :: below ∧ top.merge? c = some merged ∧
    merged.edit = .overwrite content ∧ content.isEmpty = true

variable {base : Quads} {graph : Option Term} {top c merged : GraphEdit}
  {latest below : List GraphEdit} {q : Quad}

theorem push_of_merge? (h : top.merge? c = some merged) :
    push (top :: below) c = if merged.isEmpty then below else merged :: below := by
  rw [push, h]

theorem push_of_merge?_eq_none (h : top.merge? c = none) :
    push (top :: below) c = c :: top :: below := by
  rw [push, h]

/-- What holds of the edits of a stack and of a pushed edit holds of the edits after the
push, provided that a fold of which something is left keeps it. -/
theorem forall_mem_push {P : GraphEdit → Prop} (h : ∀ d ∈ latest, P d) (hc : P c)
    (hfold : ∀ top merged, P top → top.merge? c = some merged → merged.isEmpty = false →
      P merged) :
    ∀ d ∈ push latest c, P d := by
  cases latest with
  | nil => exact List.forall_mem_singleton.mpr hc
  | cons top below =>
      obtain ⟨htop, hbelow⟩ := List.forall_mem_cons.mp h
      cases hmerge : top.merge? c with
      | none =>
          rw [push_of_merge?_eq_none hmerge]
          exact List.forall_mem_cons.mpr ⟨hc, h⟩
      | some merged =>
          rw [push_of_merge? hmerge]
          split
          · exact hbelow
          · rename_i hleft
            have hmerged := hfold top merged htop hmerge (Bool.eq_false_iff.mpr hleft)
            exact List.forall_mem_cons.mpr ⟨hmerged, hbelow⟩

theorem forall_fits_push (h : ∀ d ∈ latest, d.Fits graph) (hc : c.Fits graph) :
    ∀ d ∈ push latest c, d.Fits graph :=
  forall_mem_push h hc fun _ _ htop hmerge _ => (GraphEdit.foldsTo_of_merge? hmerge).fits htop hc

theorem Exact.push (hexact : Exact base latest)
    (hedit : c.edit.ExactOn (result base latest)) : Exact base (push latest c) := by
  cases latest with
  | nil => exact ⟨hedit, trivial⟩
  | cons top below =>
      cases hmerge : top.merge? c with
      | none =>
          rw [push_of_merge?_eq_none hmerge]
          exact ⟨hedit, hexact⟩
      | some merged =>
          rw [push_of_merge? hmerge]
          split
          · exact hexact.2
          · exact ⟨hexact.1.merge? hedit (GraphEdit.foldsTo_of_merge? hmerge).merge?_eq, hexact.2⟩

/-- An edit that is folded into the top has the effect of what comes of it, even if
that is empty, unless it is an emptied overwrite. -/
theorem contains_result_push_of_merge? (hmerge : top.merge? c = some merged)
    (hkept : ¬ Empties (top :: below) c) (q : Quad) :
    (result base (push (top :: below) c)).contains q =
      (merged.edit.apply c.graphTerm (result base below)).contains q := by
  rw [push_of_merge? hmerge]
  split
  · rename_i hempty
    cases hedit : merged.edit with
    | update removed added =>
        rw [GraphEdit.isEmpty, hedit] at hempty
        exact (Edit.contains_apply_of_isEmpty hempty q).symm
    | overwrite content =>
        rw [GraphEdit.isEmpty, hedit] at hempty
        exact absurd ⟨top, below, merged, content, rfl, hmerge, hedit, hempty⟩ hkept
  · rw [← (GraphEdit.foldsTo_of_merge? hmerge).graph_merged]
    rfl

/-- Pushing an exact edit carries it out, unless it empties an overwrite. -/
theorem contains_result_push (hfits : ∀ d ∈ latest, d.Fits graph) (hc : c.Fits graph)
    (hexact : Exact base latest) (hedit : c.edit.ExactOn (result base latest))
    (hkept : ¬ Empties latest c) (q : Quad) :
    (result base (push latest c)).contains q =
      (c.edit.apply graph (result base latest)).contains q := by
  cases latest with
  | nil =>
      change (c.edit.apply c.graphTerm base).contains q = (c.edit.apply graph base).contains q
      rw [hc.graph_eq]
  | cons top below =>
      cases hmerge : top.merge? c with
      | none =>
          rw [push_of_merge?_eq_none hmerge, ← hc.graph_eq]
          rfl
      | some merged =>
          have htop := hfits top List.mem_cons_self
          have hresult : result base (top :: below) = top.edit.apply graph (result base below) := by
            rw [← htop.graph_eq]
            rfl
          rw [hresult] at hedit
          rw [contains_result_push_of_merge? hmerge hkept, hresult, hc.graph_eq]
          exact Edit.contains_apply_merged htop.lies hc.lies hexact.1 hedit
            (GraphEdit.foldsTo_of_merge? hmerge).merge?_eq q

/-- What a stack makes of a quad depends on nothing but this quad. -/
theorem contains_result_congr {other : Quads} (latest : List GraphEdit)
    (h : base.contains q = other.contains q) :
    (result base latest).contains q = (result other latest).contains q := by
  induction latest with
  | nil => exact h
  | cons c below ih => exact Edit.contains_apply_congr c.edit ih

/-- The edits of one graph leave the quads of other graphs alone. -/
theorem contains_result_of_ne (hfits : ∀ d ∈ latest, d.Fits graph) (hq : q.graphTerm ≠ graph) :
    (result base latest).contains q = base.contains q := by
  induction latest with
  | nil => rfl
  | cons c below ih =>
      obtain ⟨hc, hbelow⟩ := List.forall_mem_cons.mp hfits
      have hgraph : q.graphTerm ≠ c.graphTerm := hc.graph_eq ▸ hq
      have hlies : c.edit.LiesIn c.graphTerm := hc.graph_eq ▸ hc.lies
      exact (hlies.contains_apply_of_ne hgraph _).trans (ih hbelow)

theorem replay_changes (stack : GraphStack) (base : Quads) :
    Change.replay stack.changes base = result base stack.latest := by
  unfold GraphStack.changes
  induction stack.latest with
  | nil => rfl
  | cons c below ih =>
      rw [List.reverse_cons, List.map_append, Change.replay_append, ih]
      rfl

end GraphStack

/-! ## The two kinds of changes -/

namespace Change

variable {change : Change}

/-- A change that does not cross graphs is the edit of one. -/
theorem exists_eq_inGraph (h : change.crossesGraphs = false) : ∃ c, change = .inGraph c := by
  cases change with
  | inGraph c => exact ⟨c, rfl⟩
  | dropEntity e => cases h
  | dropReferences e => cases h

theorem editsGraph_of_crossesGraphs (h : change.crossesGraphs = true) (graph : Option Term) :
    change.editsGraph graph = false := by
  cases change with
  | inGraph c => cases h
  | dropEntity e => rfl
  | dropReferences e => rfl

end Change

/-! ## The stacks of a log -/

/-- The edits of a graph in a list of stacks, the latest first. -/
def latestIn (graph : Option Term) (unsettled : List GraphStack) : List GraphEdit :=
  ((unsettled.find? fun stack => stack.graph == graph).map GraphStack.latest).getD []

section

variable {graph : Option Term} {stack : GraphStack} {unsettled : List GraphStack} {c : GraphEdit}

@[simp] theorem latestIn_nil : latestIn graph [] = [] := rfl

theorem latestIn_cons : latestIn graph (stack :: unsettled) =
    if stack.graph = graph then stack.latest else latestIn graph unsettled := by
  unfold latestIn
  rw [List.find?_cons]
  split
  · rename_i h
    rw [if_pos (beq_iff_eq.mp h)]
    rfl
  · rename_i h
    rw [if_neg fun heq => Bool.false_ne_true (h.symm.trans (beq_iff_eq.mpr heq))]

theorem latestIn_eq_nil (h : graph ∉ unsettled.map GraphStack.graph) :
    latestIn graph unsettled = [] := by
  induction unsettled with
  | nil => rfl
  | cons stack rest ih =>
      rw [List.map_cons, List.mem_cons, not_or] at h
      rw [latestIn_cons, if_neg (Ne.symm h.1), ih h.2]

theorem latestIn_of_mem (hdistinct : (unsettled.map GraphStack.graph).Nodup)
    (hstack : stack ∈ unsettled) : latestIn stack.graph unsettled = stack.latest := by
  induction unsettled with
  | nil => cases hstack
  | cons first rest ih =>
      rw [List.map_cons, List.nodup_cons] at hdistinct
      rw [latestIn_cons]
      rcases List.mem_cons.mp hstack with rfl | hrest
      · exact if_pos rfl
      · have hne : first.graph ≠ stack.graph := fun heq =>
          hdistinct.1 (heq ▸ List.mem_map_of_mem hrest)
        rw [if_neg hne, ih hdistinct.2 hrest]

/-- The edits of a graph lie on its stack, if it has one. -/
theorem latestIn_eq_nil_or_mem (graph : Option Term) (unsettled : List GraphStack) :
    latestIn graph unsettled = [] ∨
      ∃ stack ∈ unsettled, stack.graph = graph ∧ latestIn graph unsettled = stack.latest := by
  unfold latestIn
  cases hfind : unsettled.find? fun stack => stack.graph == graph with
  | none => exact .inl rfl
  | some stack =>
      have htest := List.find?_some hfind
      exact .inr ⟨stack, List.mem_of_find?_eq_some hfind, beq_iff_eq.mp htest, rfl⟩

theorem latestIn_pushOnStack : latestIn graph (ChangeLog.pushOnStack c unsettled) =
    if c.graphTerm = graph then GraphStack.push (latestIn graph unsettled) c
    else latestIn graph unsettled := by
  induction unsettled with
  | nil =>
      rw [ChangeLog.pushOnStack, latestIn_cons]
      rfl
  | cons stack rest ih =>
      rw [ChangeLog.pushOnStack]
      split
      · rename_i hgraph
        rw [latestIn_cons, latestIn_cons, ← hgraph]
        split <;> rfl
      · rename_i hgraph
        rw [latestIn_cons, latestIn_cons, ih]
        by_cases hc : c.graphTerm = graph
        · rw [if_pos hc, if_pos hc, if_neg fun heq => hgraph (heq.trans hc.symm),
            if_neg fun heq => hgraph (heq.trans hc.symm)]
        · rw [if_neg hc, if_neg hc]

theorem graphs_pushOnStack : (ChangeLog.pushOnStack c unsettled).map GraphStack.graph =
    if c.graphTerm ∈ unsettled.map GraphStack.graph then unsettled.map GraphStack.graph
    else unsettled.map GraphStack.graph ++ [c.graphTerm] := by
  induction unsettled with
  | nil => rfl
  | cons stack rest ih =>
      rw [ChangeLog.pushOnStack]
      split
      · rename_i hgraph
        rw [if_pos (hgraph ▸ List.mem_cons_self)]
        rfl
      · rename_i hgraph
        rw [List.map_cons, List.map_cons, ih]
        by_cases hin : c.graphTerm ∈ rest.map GraphStack.graph
        · rw [if_pos hin, if_pos (List.mem_cons_of_mem _ hin)]
        · have hout : c.graphTerm ∉ stack.graph :: rest.map GraphStack.graph := by
            intro hmem
            rcases List.mem_cons.mp hmem with heq | hold
            · exact hgraph heq.symm
            · exact hin hold
          rw [if_neg hin, if_neg hout, List.cons_append]

/-- A graph that has a stack gets no second one. -/
theorem nodup_graphs_pushOnStack (h : (unsettled.map GraphStack.graph).Nodup) :
    ((ChangeLog.pushOnStack c unsettled).map GraphStack.graph).Nodup := by
  rw [graphs_pushOnStack]
  split
  · exact h
  · rename_i hnew
    refine List.nodup_append.mpr ⟨h, List.pairwise_singleton _ _, ?_⟩
    intro graph hgraph graph' hgraph' heq
    rw [List.mem_singleton] at hgraph'
    exact hnew (hgraph' ▸ heq ▸ hgraph)

end

namespace ChangeLog

variable {log : ChangeLog} {graph : Option Term} {c : GraphEdit}

/-- The unsettled edits of a graph, the latest first. -/
def latestFor (log : ChangeLog) (graph : Option Term) : List GraphEdit :=
  latestIn graph log.unsettled

theorem forGraph_eq (log : ChangeLog) (graph : Option Term) :
    log.forGraph graph = log.settled.filter (fun change => change.editsGraph graph) ++
      GraphStack.changes ⟨graph, log.latestFor graph⟩ := by
  rw [forGraph, latestFor, latestIn]
  cases log.unsettled.find? fun stack => stack.graph == graph with
  | none => rfl
  | some stack => rfl

/-- Each graph has one stack, and only edits of the graph lie on it. -/
structure Tidy (log : ChangeLog) : Prop where
  distinct : (log.unsettled.map GraphStack.graph).Nodup
  fits : ∀ stack ∈ log.unsettled, ∀ c ∈ stack.latest, c.Fits stack.graph

theorem tidy_of_unsettled_eq_nil (h : log.unsettled = []) : log.Tidy := by
  constructor
  · rw [h]
    exact List.nodup_nil
  · rw [h]
    intro stack hstack
    cases hstack

theorem Tidy.fits_latestFor (h : log.Tidy) (graph : Option Term) :
    ∀ c ∈ log.latestFor graph, c.Fits graph := by
  rcases latestIn_eq_nil_or_mem graph log.unsettled with hnil | ⟨stack, hstack, hgraph, heq⟩
  · rw [latestFor, hnil]
    exact fun c hc => absurd hc List.not_mem_nil
  · rw [latestFor, heq]
    exact hgraph ▸ h.fits stack hstack

/-- What holds of each stack holds of each stack after an edit was pushed, provided that
it holds of a new stack and the push keeps it. -/
theorem forall_mem_pushOnStack {P : GraphStack → Prop} {unsettled : List GraphStack}
    (h : ∀ stack ∈ unsettled, P stack) (hnew : P ⟨c.graphTerm, [c]⟩)
    (hpush : ∀ stack, P stack → stack.graph = c.graphTerm →
      P { stack with latest := GraphStack.push stack.latest c }) :
    ∀ stack ∈ pushOnStack c unsettled, P stack := by
  induction unsettled with
  | nil => exact List.forall_mem_singleton.mpr hnew
  | cons stack rest ih =>
      obtain ⟨hstack, hrest⟩ := List.forall_mem_cons.mp h
      rw [pushOnStack]
      split
      · rename_i hgraph
        exact List.forall_mem_cons.mpr ⟨hpush stack hstack hgraph, hrest⟩
      · exact List.forall_mem_cons.mpr ⟨hstack, ih hrest⟩

theorem fits_pushOnStack {unsettled : List GraphStack}
    (h : ∀ stack ∈ unsettled, ∀ d ∈ stack.latest, d.Fits stack.graph)
    (hc : c.edit.LiesIn c.graphTerm) :
    ∀ stack ∈ pushOnStack c unsettled, ∀ d ∈ stack.latest, d.Fits stack.graph :=
  forall_mem_pushOnStack h (List.forall_mem_singleton.mpr ⟨rfl, hc⟩) fun _ hstack hgraph =>
    GraphStack.forall_fits_push hstack ⟨hgraph.symm, hgraph ▸ hc⟩

/-! ## Logging a change -/

theorem add_inGraph (log : ChangeLog) (hc : c.isEmpty = false) :
    log.add (.inGraph c) = { log with unsettled := pushOnStack c log.unsettled } := by
  rw [add, Change.isEmpty, if_neg (Bool.eq_false_iff.mp hc)]

theorem add_of_crossesGraphs (log : ChangeLog) {change : Change}
    (h : change.crossesGraphs = true) :
    log.add change = { log with settled := log.changes ++ [change], unsettled := [] } := by
  cases change with
  | inGraph c => cases h
  | dropEntity e => rfl
  | dropReferences e => rfl

theorem settled_add_inGraph (log : ChangeLog) (hc : c.isEmpty = false) :
    (log.add (.inGraph c)).settled = log.settled := by
  rw [add_inGraph log hc]

theorem latestFor_add_inGraph (log : ChangeLog) (hc : c.isEmpty = false) (graph : Option Term) :
    (log.add (.inGraph c)).latestFor graph =
      if c.graphTerm = graph then GraphStack.push (log.latestFor graph) c
      else log.latestFor graph := by
  rw [add_inGraph log hc]
  exact latestIn_pushOnStack

theorem Tidy.add_inGraph (h : log.Tidy) (hempty : c.isEmpty = false)
    (hc : c.edit.LiesIn c.graphTerm) : (log.add (.inGraph c)).Tidy := by
  rw [ChangeLog.add_inGraph log hempty]
  constructor
  · exact nodup_graphs_pushOnStack h.distinct
  · exact fits_pushOnStack h.fits hc

/-! ## Replaying a log -/

/-- Which stack comes first does not matter to a quad: only that of its own graph
decides about it. -/
theorem contains_replay_stacks {unsettled : List GraphStack}
    (hdistinct : (unsettled.map GraphStack.graph).Nodup)
    (hfits : ∀ stack ∈ unsettled, ∀ d ∈ stack.latest, d.Fits stack.graph) (base : Quads)
    (q : Quad) :
    (Change.replay (unsettled.flatMap GraphStack.changes) base).contains q =
      (GraphStack.result base (latestIn q.graphTerm unsettled)).contains q := by
  induction unsettled generalizing base with
  | nil => rfl
  | cons stack rest ih =>
      rw [List.map_cons, List.nodup_cons] at hdistinct
      obtain ⟨hstack, hrest⟩ := List.forall_mem_cons.mp hfits
      rw [List.flatMap_cons, Change.replay_append, GraphStack.replay_changes,
        ih hdistinct.2 hrest, latestIn_cons]
      split
      · -- no other stack is of the same graph
        rename_i hgraph
        rw [latestIn_eq_nil (hgraph ▸ hdistinct.1)]
        rfl
      · rename_i hgraph
        have hsame : (GraphStack.result base stack.latest).contains q = base.contains q :=
          GraphStack.contains_result_of_ne hstack (Ne.symm hgraph)
        exact GraphStack.contains_result_congr _ hsame

/-- A quad is decided by the settled changes and the stack of its graph. -/
theorem Tidy.contains_replay_changes (h : log.Tidy) (base : Quads) (q : Quad) :
    (Change.replay log.changes base).contains q =
      (GraphStack.result (Change.replay log.settled base)
        (log.latestFor q.graphTerm)).contains q := by
  rw [changes, Change.replay_append]
  exact contains_replay_stacks h.distinct h.fits _ q

end ChangeLog

end QuadSession

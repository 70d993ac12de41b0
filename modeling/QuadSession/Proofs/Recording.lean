import QuadSession.Proofs.Edits
import QuadSession.Proofs.Mutations

/-!
# What the record of a mutation does to a log

A mutation is logged as one edit for each graph in which it did anything.  This
file follows one such edit onto the stack of its graph.

## Strategy

A graph that keeps quads is recorded by its content or by an exact update, and
both leave the stack telling the truth.  Where nothing remains in the graph the
record is an update in any case, and it may fail in two ways.  It may be folded
into an overwrite, which it empties, so that the overwrite is dropped.  Or it adds
a quad that the same mutation has swept away again, because an update takes its
quads away before it adds the others; this does no harm only if the update is
folded into one that has removed the quad before.  `GraphStack.Misses` says that
one of the two happens.

An overwrite is only ever made in a graph that held quads, so what it covers is
not empty (`GraphStack.Covering`), and dropping it always shows.

## Main statements

* `Mutation.Accounts.records`: the stack tells the truth unless it misses that
  nothing remains in the graph.
* `Mutation.exists_of_misses`: if it does, it claims that the graph holds
  something.
-/

namespace QuadSession

/-! ## Overwrites that cover something -/

namespace GraphStack

variable {base : Quads} {graph : Option Term} {top c merged : GraphEdit}
  {latest below : List GraphEdit} {q : Quad}

/-- Below every overwrite of the stack, the graph holds a quad. -/
def Covering (graph : Option Term) (base : Quads) : List GraphEdit → Prop
  | [] => True
  | c :: below =>
    ((∃ content, c.edit = .overwrite content) →
      ∃ q : Quad, (result base below).contains q = true ∧ q.graphTerm = graph) ∧
    Covering graph base below

theorem Covering.push (h : Covering graph base latest)
    (hc : (∃ content, c.edit = .overwrite content) →
      ∃ q : Quad, (result base latest).contains q = true ∧ q.graphTerm = graph) :
    Covering graph base (push latest c) := by
  cases latest with
  | nil => exact ⟨hc, trivial⟩
  | cons top below =>
      cases hmerge : top.merge? c with
      | none =>
          rw [push_of_merge?_eq_none hmerge]
          exact ⟨hc, h⟩
      | some merged =>
          rw [push_of_merge? hmerge]
          split
          · exact h.2
          · refine ⟨fun hoverwrite => h.1 ?_, h.2⟩
            -- only an overwrite can be folded into an overwrite
            obtain ⟨content, hcontent⟩ := hoverwrite
            have hfold := (GraphEdit.foldsTo_of_merge? hmerge).merge?_eq
            cases htop : top.edit with
            | overwrite content => exact ⟨content, rfl⟩
            | update removed added =>
                rw [htop, hcontent] at hfold
                cases hedit : c.edit with
                | update removed' added' =>
                    rw [hedit] at hfold
                    cases hfold
                | overwrite content' =>
                    rw [hedit] at hfold
                    cases hfold

/-- The edit into which an update on behalf of the entity is folded. -/
def target (e : Entity) : List GraphEdit → Option Edit
  | [] => none
  | top :: _ => if top.entity = e then some top.edit else none

/-- An update on behalf of the entity that adds the gained quads does not make the
stack say that nothing remains in the graph: it leaves an overwrite empty, or it
adds a quad that the update below has not removed. -/
def Misses (e : Entity) (graph : Option Term) (gained : List Quad) (latest : List GraphEdit) :
    Prop :=
  (∃ content, target e latest = some (.overwrite content)) ∨
    ∃ q, gained.contains q = true ∧ q.graphTerm = graph ∧
      ∀ removed added, target e latest = some (.update removed added) →
        removed.contains q = false

theorem exists_of_target {e : Entity} {edit : Edit} (h : target e latest = some edit) :
    ∃ top below, latest = top :: below ∧ top.entity = e ∧ top.edit = edit := by
  cases latest with
  | nil => cases h
  | cons top below =>
      change (if top.entity = e then some top.edit else none) = some edit at h
      split at h
      · rename_i hentity
        exact ⟨top, below, rfl, hentity, Option.some.inj h⟩
      · cases h

/-- An update on behalf of the entity is folded into its target. -/
theorem exists_fold_of_target {edit : Edit} {removed added : Quads}
    (hfits : ∀ d ∈ latest, d.Fits graph) (hgraph : c.graphTerm = graph)
    (hedit : c.edit = .update removed added) (htarget : target c.entity latest = some edit) :
    ∃ top below merged, latest = top :: below ∧ top.edit = edit ∧ top.merge? c = some merged ∧
      edit.merge? (.update removed added) = some merged.edit := by
  obtain ⟨top, below, rfl, hentity, rfl⟩ := exists_of_target htarget
  have hsame : top.graphTerm = c.graphTerm :=
    (hfits top List.mem_cons_self).graph_eq.trans hgraph.symm
  obtain ⟨merged, hmerge⟩ := GraphEdit.exists_merge?_of_update hedit hentity hsame
  have hmerged := (GraphEdit.foldsTo_of_merge? hmerge).merge?_eq
  rw [hedit] at hmerged
  exact ⟨top, below, merged, rfl, rfl, hmerge, hmerged⟩

/-- A stack that misses nothing has removed whatever was gained in the graph. -/
theorem exists_target_of_not_misses {e : Entity} {gained : List Quad}
    (h : ¬ Misses e graph gained latest) (hq : gained.contains q = true)
    (hgraph : q.graphTerm = graph) : ∃ removed added,
      target e latest = some (.update removed added) ∧ removed.contains q = true := by
  by_contra hnone
  refine h (.inr ⟨q, hq, hgraph, fun removed added htarget => ?_⟩)
  exact Bool.eq_false_iff.mpr fun hremoved => hnone ⟨removed, added, htarget, hremoved⟩

theorem target_of_foldsTo (h : top.FoldsTo c merged) :
    target c.entity (top :: below) = some top.edit :=
  if_pos h.entity_eq

/-- An update that empties an overwrite was folded into it. -/
theorem Empties.exists_overwrite {removed added : Quads} (h : Empties latest c)
    (hedit : c.edit = .update removed added) : ∃ top below content,
      latest = top :: below ∧ top.edit = .overwrite content ∧
      target c.entity latest = some (.overwrite content) ∧
      ∀ q, (content.contains q && !removed.contains q || added.contains q) = false := by
  obtain ⟨top, below, merged, rest, rfl, hmerge, hmerged, hempty⟩ := h
  have hfold := GraphEdit.foldsTo_of_merge? hmerge
  have hedits := hfold.merge?_eq
  cases htop : top.edit with
  | update removed' added' =>
      rw [htop, hedit, hmerged] at hedits
      cases hedits
  | overwrite content =>
      refine ⟨top, below, content, rfl, htop, htop ▸ target_of_foldsTo hfold, fun q => ?_⟩
      rw [htop, hedit, hmerged] at hedits
      cases hedits
      rw [Std.TreeSet.isEmpty_iff_forall_contains] at hempty
      have hq := hempty q
      rwa [Quads.contains_union, Quads.contains_diff] at hq

/-- An overwrite leaves nothing only if it states nothing. -/
theorem Empties.isEmpty_of_overwrite {content : Quads} (h : Empties latest c)
    (hedit : c.edit = .overwrite content) : content.isEmpty = true := by
  obtain ⟨top, below, merged, rest, rfl, hmerge, hmerged, hempty⟩ := h
  have hedits := (GraphEdit.foldsTo_of_merge? hmerge).merge?_eq
  rw [hedit, hmerged] at hedits
  cases htop : top.edit with
  | update removed added =>
      rw [htop] at hedits
      cases hedits
  | overwrite content' =>
      rw [htop] at hedits
      cases hedits
      exact hempty

/-- A quad that an update adds is there, unless the update is folded into one that
has removed it. -/
theorem contains_result_push_of_added {removed added : Quads}
    (hedit : c.edit = .update removed added) (hq : added.contains q = true)
    (hmissing : ∀ removed' added', target c.entity latest = some (.update removed' added') →
      removed'.contains q = false) :
    (result base (push latest c)).contains q = true := by
  have hadded : ∀ s : Quads, (c.edit.apply c.graphTerm s).contains q = true := by
    intro s
    rw [hedit, Edit.contains_apply_update, hq, Bool.or_true]
  cases latest with
  | nil => exact hadded base
  | cons top below =>
      cases hmerge : top.merge? c with
      | none =>
          rw [push_of_merge?_eq_none hmerge]
          exact hadded _
      | some merged =>
          have hfold := GraphEdit.foldsTo_of_merge? hmerge
          have htarget : target c.entity (top :: below) = some top.edit := target_of_foldsTo hfold
          have hkept : ¬ Empties (top :: below) c := by
            intro hempties
            obtain ⟨-, -, content, -, -, -, hnone⟩ := hempties.exists_overwrite hedit
            have hnone' := hnone q
            rw [hq, Bool.or_true] at hnone'
            exact Bool.noConfusion hnone'
          have hmerged := hfold.merge?_eq
          rw [contains_result_push_of_merge? hmerge hkept]
          cases htop : top.edit with
          | overwrite content =>
              rw [htop, hedit] at hmerged
              rw [← Option.some.inj hmerged, Edit.contains_apply_overwrite, Quads.contains_union,
                hq, Bool.or_true, Bool.or_true]
          | update removed' added' =>
              rw [htop, hedit] at hmerged
              rw [htop] at htarget
              have hnew : (Quads.diff added removed').contains q = true := by
                rw [Quads.contains_diff, hq, hmissing removed' added' htarget]
                rfl
              have hboth : (Quads.union (Quads.diff added' removed)
                  (Quads.diff added removed')).contains q = true := by
                rw [Quads.contains_union, hnew, Bool.or_true]
              rw [← Option.some.inj hmerged, Edit.contains_apply_update, hboth, Bool.or_true]

/-! ## The stack of a graph through a mutation -/

/-- What the stack of the graph makes of the base is what the dataset holds in the
graph. -/
structure Tells (graph : Option Term) (base : Quads) (latest : List GraphEdit) (d : Dataset) :
    Prop where
  fits : ∀ c ∈ latest, c.Fits graph
  exact : Exact base latest
  covering : Covering graph base latest
  agrees : ∀ q : Quad, q.graphTerm = graph → (result base latest).contains q = d.contains q

end GraphStack

namespace Mutation.Accounts

open GraphStack

variable {m : Mutation} {before : Dataset} {graph : Option Term} {base : Quads}
  {latest : List GraphEdit} {c : GraphEdit}

/-- What the edits of a mutation name in their graph. -/
theorem contains_named (quads : List Quad) {q : Quad} (hq : q.graphTerm = graph) :
    (Quads.ofList (Session.inGraph graph quads)).contains q = quads.contains q := by
  rw [Quads.contains_ofList, contains_inGraph, hq, beq_self_eq_true, Bool.and_true]

/-- Stating what remains in the graph is right whatever was on the stack. -/
theorem tells_push_overwrite (hm : m.Accounts before) (h : Tells graph base latest before)
    (hc : c.Fits graph)
    (hedit : c.edit = .overwrite (Quads.ofList (m.after.quads.inGraph graph)))
    (hlost : ∃ q, m.lost.contains q = true ∧ q.graphTerm = graph)
    (hleft : ∃ q, m.after.quads.contains q = true ∧ q.graphTerm = graph) :
    Tells graph base (push latest c) m.after.quads := by
  have hexact : c.edit.ExactOn (result base latest) := by
    rw [hedit]
    trivial
  have hcontent : ∀ q : Quad, q.graphTerm = graph →
      (Quads.ofList (m.after.quads.inGraph graph)).contains q = m.after.quads.contains q := by
    intro q hq
    rw [Quads.contains_ofList, Dataset.contains_inGraph, hq, beq_self_eq_true, Bool.and_true]
  refine ⟨forall_fits_push h.fits hc, h.exact.push hexact, h.covering.push fun _ => ?_, ?_⟩
  · -- the graph held something: what was lost in it, or what is left if that was only gained
    obtain ⟨q, hq, hgraph⟩ := hlost
    obtain ⟨x, hx, hgraph'⟩ := hleft
    rcases ((hm.lost_iff q).mp hq).1 with hold | hnew
    · exact ⟨q, (h.agrees q hgraph).trans hold, hgraph⟩
    · rcases hm.left x hx with hold | hgained
      · exact ⟨x, (h.agrees x hgraph').trans hold, hgraph'⟩
      · exact absurd hx ((hm.swept q hnew hq).2 x hgained)
  · intro q hq
    have hkept : ¬ Empties latest c := by
      intro hempties
      obtain ⟨x, hx, hgraph⟩ := hleft
      have hnone := hempties.isEmpty_of_overwrite hedit
      rw [Std.TreeSet.isEmpty_iff_forall_contains] at hnone
      exact Bool.false_ne_true ((hnone x).symm.trans ((hcontent x hgraph).trans hx))
    rw [contains_result_push h.fits hc h.exact hexact hkept, hedit, Edit.contains_apply_overwrite,
      hcontent q hq, hq, bne_self_eq_false, Bool.and_false, Bool.false_or]

/-- An update without a quad that was both gained and lost is exact. -/
theorem tells_push_update (hm : m.Accounts before) (h : Tells graph base latest before)
    (hc : c.Fits graph)
    (hedit : c.edit = .update (Quads.ofList (Session.inGraph graph m.lost))
      (Quads.ofList (Session.inGraph graph m.gained)))
    (hapart : ∀ q, m.gained.contains q = true → q.graphTerm = graph →
      m.lost.contains q = false)
    (hshown : (∃ x, m.after.quads.contains x = true ∧ x.graphTerm = graph) ∨
      ¬ Misses c.entity graph m.gained latest) :
    Tells graph base (push latest c) m.after.quads := by
  have hexact : c.edit.ExactOn (result base latest) := by
    rw [hedit]
    constructor
    · intro q hq
      rw [Quads.contains_ofList, contains_inGraph, Bool.and_eq_true, beq_iff_eq] at hq
      rw [h.agrees q hq.2]
      refine ((hm.lost_iff q).mp hq.1).1.resolve_right fun hgained => ?_
      exact Bool.false_ne_true ((hapart q hgained hq.2).symm.trans hq.1)
    · intro q hq
      rw [Quads.contains_ofList, contains_inGraph, Bool.and_eq_true, beq_iff_eq] at hq
      rw [h.agrees q hq.2]
      exact Bool.eq_false_iff.mpr (hm.gained_new q hq.1)
  have hkept : ¬ Empties latest c := by
    intro hempties
    obtain ⟨top, below, content, rfl, htop, htarget, hnone⟩ := hempties.exists_overwrite hedit
    obtain ⟨x, hx, hgraph⟩ := hshown.resolve_right fun hmisses => hmisses (.inl ⟨content, htarget⟩)
    have htop' := h.fits top List.mem_cons_self
    -- what remains was in the overwrite or is added to it
    have hstated : (result base (top :: below)).contains x = content.contains x := by
      change (top.edit.apply top.graphTerm (result base below)).contains x = _
      rw [htop, htop'.graph_eq, Edit.contains_apply_overwrite, hgraph, bne_self_eq_false,
        Bool.and_false, Bool.false_or]
    have hempty := hnone x
    rw [contains_named m.lost hgraph, contains_named m.gained hgraph, ← hstated,
      h.agrees x hgraph] at hempty
    have hlost := hm.lost_iff x
    have hleft := hm.left x hx
    grind
  refine ⟨forall_fits_push h.fits hc, h.exact.push hexact, h.covering.push fun hoverwrite => ?_, ?_⟩
  · obtain ⟨content, hcontent⟩ := hoverwrite
    rw [hedit] at hcontent
    cases hcontent
  · intro q hq
    rw [contains_result_push h.fits hc h.exact hexact hkept, hedit, Edit.contains_apply_update,
      contains_named m.lost hq, contains_named m.gained hq, h.agrees q hq]
    have hlost := hm.lost_iff q
    have hleft := hm.left q
    have hnew := hm.gained_new q
    have hboth := fun hgained => hapart q hgained hq
    grind

/-- Where nothing remains, an update may add quads that are gone again, if it is
folded into one that has removed all of them. -/
theorem tells_push_removed (hm : m.Accounts before) (h : Tells graph base latest before)
    (hc : c.Fits graph)
    (hedit : c.edit = .update (Quads.ofList (Session.inGraph graph m.lost))
      (Quads.ofList (Session.inGraph graph m.gained)))
    (hnone : ∀ q, m.after.quads.contains q = true → q.graphTerm ≠ graph)
    {removed added : Quads} (htarget : target c.entity latest = some (.update removed added))
    (hremoved : ∀ q, m.gained.contains q = true → q.graphTerm = graph →
      removed.contains q = true) :
    Tells graph base (push latest c) m.after.quads := by
  obtain ⟨top, below, merged, rfl, htop, hmerge, hmerged⟩ :=
    exists_fold_of_target h.fits hc.graph_eq hedit htarget
  have hbelow := h.exact.1
  rw [htop] at hbelow
  have hkept : ¬ Empties (top :: below) c := by
    intro hempties
    obtain ⟨top', below', content, heq, hoverwrite, -⟩ := hempties.exists_overwrite hedit
    cases heq
    rw [htop] at hoverwrite
    cases hoverwrite
  -- a quad of the graph that was lost was there below, or is in the folded update
  have hquad : ∀ q : Quad, q.graphTerm = graph →
      ((result base below).contains q && !removed.contains q || added.contains q) =
        before.contains q := by
    intro q hq
    rw [← h.agrees q hq, result, htop, Edit.contains_apply_update]
  have hlost : ∀ q : Quad, q.graphTerm = graph → (m.lost.contains q = true ↔
      before.contains q = true ∨ m.gained.contains q = true) := by
    intro q hq
    rw [hm.lost_iff q, and_iff_left fun hleft => hnone q hleft hq]
  refine ⟨forall_fits_push h.fits hc, ?_, h.covering.push fun hoverwrite => ?_, ?_⟩
  · rw [push_of_merge? hmerge]
    split
    · exact h.exact.2
    · refine ⟨?_, h.exact.2⟩
      rw [← Option.some.inj hmerged]
      constructor
      · intro q hq
        have htaken := hbelow.1 q
        simp only [Quads.contains_union, Quads.contains_diff, Quads.contains_ofList,
          contains_inGraph] at hq
        have hquad' := hquad q
        have hlost' := hlost q
        have hremoved' := hremoved q
        grind
      · intro q hq
        have hnew := hbelow.2 q
        simp only [Quads.contains_union, Quads.contains_diff, Quads.contains_ofList,
          contains_inGraph] at hq
        have hremoved' := hremoved q
        grind
  · obtain ⟨content, hcontent⟩ := hoverwrite
    rw [hedit] at hcontent
    cases hcontent
  · intro q hq
    have hafter : m.after.quads.contains q = false :=
      Bool.eq_false_iff.mpr fun hleft => hnone q hleft hq
    rw [contains_result_push_of_merge? hmerge hkept, ← Option.some.inj hmerged, hafter,
      Edit.contains_apply_update]
    simp only [Quads.contains_union, Quads.contains_diff, contains_named m.lost hq,
      contains_named m.gained hq]
    have hnew := hbelow.2 q
    have hquad' := hquad q hq
    have hlost' := hlost q hq
    have hremoved' := hremoved q
    grind

/-- After a mutation the stack of a graph tells the truth, unless it misses that
nothing remains in the graph. -/
theorem records (hm : m.Accounts before) (h : Tells graph base latest before)
    (hgraph : c.graphTerm = graph)
    (hedit : c.edit = Session.editOf m.after.quads m.lost m.gained graph)
    (hshown : (∃ x, m.after.quads.contains x = true ∧ x.graphTerm = graph) ∨
      ¬ Misses c.entity graph m.gained latest) :
    Tells graph base (push latest c) m.after.quads := by
  have hc : c.Fits graph := ⟨hgraph, hedit ▸ editOf_liesIn⟩
  rcases editOf_cases m.after.quads m.lost m.gained graph with
    ⟨hblank, hleft, hoverwrite⟩ | ⟨hplain, hupdate⟩
  · obtain ⟨q, hq, -, hin⟩ := blankIn_iff.mp hblank
    exact hm.tells_push_overwrite h hc (hedit.trans hoverwrite) ⟨q, hq, hin⟩ hleft
  · by_cases hclash : ∃ q, m.gained.contains q = true ∧ q.graphTerm = graph ∧
        m.lost.contains q = true
    · obtain ⟨q, hgained, hin, hlost⟩ := hclash
      have hblank : Session.blankIn m.lost graph = true :=
        blankIn_iff.mpr ⟨q, hlost, (hm.swept q hgained hlost).1, hin⟩
      have hnone := hplain.resolve_left fun hfalse => Bool.false_ne_true (hfalse.symm.trans hblank)
      have hseen : ¬ Misses c.entity graph m.gained latest := by
        refine hshown.resolve_left fun hleft => ?_
        obtain ⟨x, hx, hin'⟩ := hleft
        exact hnone x hx hin'
      obtain ⟨removed, added, hupdate', -⟩ := exists_target_of_not_misses hseen hgained hin
      refine hm.tells_push_removed h hc (hedit.trans hupdate) hnone hupdate' fun y hy hin' => ?_
      obtain ⟨removed', added', hupdate'', hremoved⟩ := exists_target_of_not_misses hseen hy hin'
      rw [hupdate'] at hupdate''
      cases hupdate''
      exact hremoved
    · refine hm.tells_push_update h hc (hedit.trans hupdate) (fun q hgained hin => ?_) hshown
      exact Bool.eq_false_iff.mpr fun hlost => hclash ⟨q, hgained, hin, hlost⟩

/-- A graph in which nothing was lost or gained still holds the same. -/
theorem tells_of_untouched (hm : m.Accounts before) (h : Tells graph base latest before)
    (huntouched : ∀ q, m.lost.contains q = true ∨ m.gained.contains q = true →
      q.graphTerm ≠ graph) : Tells graph base latest m.after.quads := by
  refine ⟨h.fits, h.exact, h.covering, fun q hq => ?_⟩
  rw [h.agrees q hq, Bool.eq_iff_iff]
  have hlost := hm.lost_iff q
  have hleft := hm.left q
  have hkept := huntouched q
  grind

/-- Where nothing was gained and nothing remains, an update that is folded into an
overwrite takes it away. -/
theorem push_eq_tail (hm : m.Accounts before) (h : Tells graph base latest before)
    (hgraph : c.graphTerm = graph)
    (hedit : c.edit = Session.editOf m.after.quads m.lost m.gained graph)
    (hnone : ∀ q, m.after.quads.contains q = true → q.graphTerm ≠ graph)
    (hgained : m.gained = []) {content : Quads}
    (htarget : target c.entity latest = some (.overwrite content)) :
    push latest c = latest.tail := by
  rw [editOf_eq_update (.inr hnone)] at hedit
  obtain ⟨top, below, merged, rfl, htop, hmerge, hmerged⟩ :=
    exists_fold_of_target h.fits hgraph hedit htarget
  have hlies := (h.fits top List.mem_cons_self).lies
  rw [htop] at hlies
  have hempty : merged.isEmpty = true := by
    rw [GraphEdit.isEmpty, ← Option.some.inj hmerged, Edit.isEmpty,
      Std.TreeSet.isEmpty_iff_forall_contains]
    intro q
    rw [Quads.contains_union, Quads.contains_diff, hgained, Bool.or_eq_false_iff]
    refine ⟨?_, rfl⟩
    -- whatever the overwrite states was there, so it was lost
    by_cases hq : content.contains q = true
    · have hin := hlies q hq
      have hthere : (result base (top :: below)).contains q = true := by
        rw [result, htop, Edit.contains_apply_overwrite, hq, Bool.or_true]
      have hlost : m.lost.contains q = true := by
        refine (hm.lost_iff q).mpr ⟨.inl ?_, fun hleft => hnone q hleft hin⟩
        rw [← h.agrees q hin]
        exact hthere
      rw [contains_named m.lost hin, hlost, Bool.not_true, Bool.and_false]
    · rw [Bool.eq_false_iff.mpr hq, Bool.false_and]
  rw [push_of_merge? hmerge, if_pos hempty]
  rfl

end Mutation.Accounts

open GraphStack in
/-- If the stack misses that nothing remains in the graph, it claims that the graph
holds something. -/
theorem Mutation.exists_of_misses {m : Mutation} {before : Dataset} {graph : Option Term}
    {base : Quads} {latest : List GraphEdit} {c : GraphEdit} (h : Tells graph base latest before)
    (hgraph : c.graphTerm = graph)
    (hedit : c.edit = Session.editOf m.after.quads m.lost m.gained graph)
    (hnone : ∀ q, m.after.quads.contains q = true → q.graphTerm ≠ graph)
    (hmisses : Misses c.entity graph m.gained latest) :
    ∃ q : Quad, (result base (push latest c)).contains q = true ∧ q.graphTerm = graph := by
  have hc : c.Fits graph := ⟨hgraph, hedit ▸ editOf_liesIn⟩
  rw [editOf_eq_update (.inr hnone)] at hedit
  rcases hmisses with ⟨content, htarget⟩ | ⟨q, hq, hin, hmissing⟩
  · obtain ⟨top, below, merged, rfl, htop, hmerge, hmerged⟩ :=
      exists_fold_of_target h.fits hgraph hedit htarget
    by_cases hempty : merged.isEmpty = true
    · -- the overwrite is dropped, and what it covered shows
      rw [push_of_merge? hmerge, if_pos hempty]
      exact h.covering.1 ⟨content, htop⟩
    · have hfold := GraphEdit.foldsTo_of_merge? hmerge
      have hlies := (hfold.fits (h.fits top List.mem_cons_self) hc).lies
      rw [push_of_merge? hmerge, if_neg hempty]
      rw [GraphEdit.isEmpty, Bool.not_eq_true] at hempty
      rw [← Option.some.inj hmerged] at hempty hlies
      obtain ⟨q, hq⟩ := Std.TreeSet.isEmpty_eq_false_iff_exists_contains_eq_true.mp hempty
      refine ⟨q, ?_, hlies q hq⟩
      rw [result, ← Option.some.inj hmerged, Edit.contains_apply_overwrite, hq, Bool.or_true]
  · refine ⟨q, contains_result_push_of_added hedit ?_ hmissing, hin⟩
    rw [Mutation.Accounts.contains_named m.gained hin]
    exact hq

/-! ## A mutation in the log -/

namespace Mutation

variable {m : Mutation} {before : Dataset} {graph : Option Term} {base : Quads} {e : Entity}
  {log next : ChangeLog}

/-- The mutation takes the last quads out of the graph. -/
structure Clears (m : Mutation) (graph : Option Term) : Prop where
  lost : ∃ q, m.lost.contains q = true ∧ q.graphTerm = graph
  nothing : ∀ q, m.after.quads.contains q = true → q.graphTerm ≠ graph

/-- After a mutation the stack of a graph tells what is left, unless the graph was
cleared and the stack misses it. -/
theorem Accounts.tells_logged (hm : m.Accounts before)
    (hlogged : log.Logged (graphEdits m.after.quads e m.lost m.gained) next)
    (h : GraphStack.Tells graph base (log.latestFor graph) before)
    (hkept : m.Clears graph → ¬ GraphStack.Misses e graph m.gained (log.latestFor graph)) :
    GraphStack.Tells graph base (next.latestFor graph) m.after.quads := by
  by_cases htouched : graph ∈ (graphEdits m.after.quads e m.lost m.gained).map GraphEdit.graphTerm
  · obtain ⟨c, hc, rfl⟩ := List.mem_map.mp htouched
    obtain ⟨hentity, hedit⟩ := of_mem_graphEdits hc
    rw [hlogged.pushed c hc]
    refine hm.records h rfl hedit ?_
    by_cases hleft : ∃ x, m.after.quads.contains x = true ∧ x.graphTerm = c.graphTerm
    · exact .inl hleft
    · refine .inr ?_
      rw [hentity]
      have hnothing : ∀ q, m.after.quads.contains q = true → q.graphTerm ≠ c.graphTerm :=
        fun q hq hgraph => hleft ⟨q, hq, hgraph⟩
      obtain ⟨q, hq, hgraph⟩ := mem_graphTerms_graphEdits.mp htouched
      -- a quad that was gained in a cleared graph was lost as well
      refine hkept ⟨⟨q, hq.elim id fun hgained => ?_, hgraph⟩, hnothing⟩
      exact (hm.lost_iff q).mpr ⟨.inr hgained, fun hin => hnothing q hin hgraph⟩
  · rw [hlogged.kept graph htouched]
    refine hm.tells_of_untouched h fun q hq hgraph => htouched ?_
    exact mem_graphTerms_graphEdits.mpr ⟨q, hq, hgraph⟩

theorem exists_of_logged
    (hlogged : log.Logged (graphEdits m.after.quads e m.lost m.gained) next)
    (h : GraphStack.Tells graph base (log.latestFor graph) before) (hclears : m.Clears graph)
    (hmisses : GraphStack.Misses e graph m.gained (log.latestFor graph)) :
    ∃ q : Quad, (GraphStack.result base (next.latestFor q.graphTerm)).contains q = true ∧
      q.graphTerm = graph := by
  obtain ⟨x, hx, hgraph⟩ := hclears.lost
  have htouched : graph ∈
      (graphEdits m.after.quads e m.lost m.gained).map GraphEdit.graphTerm :=
    mem_graphTerms_graphEdits.mpr ⟨x, .inl hx, hgraph⟩
  obtain ⟨c, hc, rfl⟩ := List.mem_map.mp htouched
  obtain ⟨hentity, hedit⟩ := of_mem_graphEdits hc
  rw [← hentity] at hmisses
  obtain ⟨q, hq, hin⟩ := exists_of_misses h rfl hedit hclears.nothing hmisses
  refine ⟨q, ?_, hin⟩
  rw [hin, hlogged.pushed c hc]
  exact hq

end Mutation

end QuadSession

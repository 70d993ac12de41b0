import QuadSession.Proofs.Records
import QuadSession.Proofs.Sample

/-!
# What a chain of updates comes to

Updates that one entity makes in one graph are folded into a single change.  This file
says which one it is.

## Strategy

An update is exact if it takes away only quads that are there and adds only quads that
are not.  It is then the difference between the quads before and after: what it takes
away is missing afterwards, and what it adds is new (`Edit.isDifference_of_exactAt`).
Differences compose (`Edit.IsDifference.merge?`).  A quad that goes and comes back is
in none of the two sets of the composed update, however often it happens, since the
sets in between do not occur in the difference from the first to the last.

An overwrite knows the content, so whatever follows can be carried out on it, exact or
not.

## Main definitions

* `Edit.contentAfter` and `GraphEdit.contentAfter`: what edits make of the content of
  their graph.
* `Edit.ExactAt` and `GraphEdit.ExactAlong`: the edits are exact, each on what those
  before it leave.
* `Edit.IsDifference`: the edit is the difference between two sets of quads.

## Main statements

* `GraphEdit.foldlM_merge?_updates`: what comes of a chain of updates, and of an
  overwrite with updates behind it.
-/

namespace QuadSession

/-! ## Sets of quads -/

namespace Quads

variable {s t : Quads}

theorem members_union : (union s t).members = s.members ∪ t.members := by
  ext q
  show (union s t).contains q = true ↔ s.contains q = true ∨ t.contains q = true
  rw [contains_union, Bool.or_eq_true]

theorem members_diff : (diff s t).members = s.members \ t.members := by
  ext q
  show (diff s t).contains q = true ↔ s.contains q = true ∧ ¬ t.contains q = true
  rw [contains_diff, Bool.and_eq_true, Bool.not_eq_true', Bool.not_eq_true]

theorem isEmpty_iff_members : s.isEmpty = true ↔ s.members = ∅ := by
  rw [Std.TreeSet.isEmpty_iff_forall_contains, Set.eq_empty_iff_forall_notMem]
  exact forall_congr' fun _ => Bool.eq_false_iff

end Quads

/-! ## A single edit -/

namespace Edit

variable {edit earlier later : Edit} {removed added : Quads} {S T U : Set Quad}

/-- What the edit makes of the content of its graph. -/
def contentAfter (S : Set Quad) : Edit → Set Quad
  | update removed added => S \ removed.members ∪ added.members
  | overwrite content => content.members

/-- The edit takes away only what is in the set and adds only what is not. -/
def ExactAt (S : Set Quad) : Edit → Prop
  | update removed added => removed.members ⊆ S ∧ added.members ∩ S = ∅
  | overwrite _ => True

/-- The edit takes away what is in the first set only, and adds what is in the second
one only. -/
def IsDifference (edit : Edit) (S T : Set Quad) : Prop :=
  edit.Exchanges (S \ T) (T \ S)

/-- An exact update is the difference between what was there before and what is there
afterwards. -/
theorem isDifference_of_exactAt (hexact : (update removed added).ExactAt S) :
    (update removed added).IsDifference S ((update removed added).contentAfter S) := by
  obtain ⟨hthere, hnew⟩ := hexact
  have hapart : ∀ q, q ∈ added.members → q ∉ S := fun q hadded hq =>
    Set.eq_empty_iff_forall_notMem.mp hnew q ⟨hadded, hq⟩
  refine ⟨removed, added, rfl, ?_, ?_⟩
  · ext q
    have hremoved := @hthere q
    have hadded := hapart q
    simp only [contentAfter, Set.mem_sdiff, Set.mem_union]
    tauto
  · ext q
    have hadded := hapart q
    simp only [contentAfter, Set.mem_sdiff, Set.mem_union]
    tauto

/-- Carrying out an update on a set of quads has the same outcome. -/
theorem members_apply_update {graph : Option Term} {content : Quads} :
    ((update removed added).apply graph content).members =
      (update removed added).contentAfter content.members := by
  rw [apply, Quads.members_union, Quads.members_diff]
  rfl

/-- What goes on the way from `S` over `T` to `U` and does not come back, is missing in the
end. -/
theorem sdiff_sdiff_union_sdiff_sdiff (S T U : Set Quad) :
    (S \ T) \ (U \ T) ∪ (T \ U) \ (T \ S) = S \ U := by
  ext q
  simp only [Set.mem_union, Set.mem_sdiff]
  tauto

/-- The difference from the first set to the second one and that from the second one to
the third are folded into the difference from the first to the third. -/
theorem IsDifference.merge? (hearlier : earlier.IsDifference S T)
    (hlater : later.IsDifference T U) :
    ∃ merged, earlier.merge? later = some merged ∧ merged.IsDifference S U := by
  obtain ⟨removed, added, rfl, hremoved, hadded⟩ := hearlier
  obtain ⟨removed', added', rfl, hremoved', hadded'⟩ := hlater
  refine ⟨_, rfl, _, _, rfl, ?_, ?_⟩
  · rw [Quads.members_union, Quads.members_diff, Quads.members_diff, hremoved, hadded,
      hremoved', hadded', sdiff_sdiff_union_sdiff_sdiff]
  · -- what is new is missing on the way back
    rw [Quads.members_union, Quads.members_diff, Quads.members_diff, hremoved, hadded,
      hremoved', hadded', Set.union_comm, sdiff_sdiff_union_sdiff_sdiff]

theorem IsDifference.isEmpty_iff (h : edit.IsDifference S T) : edit.isEmpty = true ↔ T = S := by
  obtain ⟨removed, added, rfl, hremoved, hadded⟩ := h
  rw [isEmpty, Bool.and_eq_true, Quads.isEmpty_iff_members, Quads.isEmpty_iff_members, hremoved,
    hadded, Set.sdiff_eq_empty, Set.sdiff_eq_empty]
  exact ⟨fun h => h.2.antisymm h.1, fun h => ⟨h.ge, h.le⟩⟩

end Edit

/-! ## Edits one after the other -/

namespace GraphEdit

variable {c earlier merged : GraphEdit} {later : List GraphEdit} {e : Entity}
  {graph : Option Term} {S T : Set Quad}

/-- The edit is an update that the entity makes in the graph. -/
structure Updates (c : GraphEdit) (e : Entity) (graph : Option Term) : Prop where
  entity_eq : c.entity = e
  graph_eq : c.graphTerm = graph
  update : ∃ removed added, c.edit = .update removed added

/-- What the edits make of the content of their graph, one after the other. -/
def contentAfter (edits : List GraphEdit) (S : Set Quad) : Set Quad :=
  edits.foldl (fun S c => c.edit.contentAfter S) S

/-- Each of the edits is exact at what those before it make of the set. -/
def ExactAlong : Set Quad → List GraphEdit → Prop
  | _, [] => True
  | S, c :: later => c.edit.ExactAt S ∧ ExactAlong (c.edit.contentAfter S) later

/-- An update is folded into any edit of the same entity and graph, which keeps all but
what it says about the quads. -/
theorem Updates.merge?_eq (hc : c.Updates e graph) (hentity : earlier.entity = e)
    (hgraph : earlier.graphTerm = graph) :
    earlier.merge? c =
      (earlier.edit.merge? c.edit).map fun edit => { earlier with edit } := by
  obtain ⟨removed, added, hupdate⟩ := hc.update
  obtain ⟨merged, hmerge⟩ := exists_merge?_of_update hupdate (hentity.trans hc.entity_eq.symm)
    (hgraph.trans hc.graph_eq.symm)
  have habsorbs : earlier.absorbs c = true := by
    rw [← isSome_merge?, hmerge]
    rfl
  rw [merge?, if_pos habsorbs, hupdate]
  cases earlier.edit with
  | update removed' added' => rfl
  | overwrite content => rfl

/-- A difference into which exact updates are folded is the difference from its first
set to what the updates make of its second set. -/
theorem foldlM_merge?_of_isDifference (hentity : earlier.entity = e)
    (hgraph : earlier.graphTerm = graph) (hearlier : earlier.edit.IsDifference S T)
    (hlater : ∀ c ∈ later, c.Updates e graph) (hexact : ExactAlong T later) :
    ∃ merged : GraphEdit,
      (later.map Change.inGraph).foldlM Change.merge? (.inGraph earlier) = some (.inGraph merged) ∧
      merged.entity = e ∧ merged.graphTerm = graph ∧
      merged.edit.IsDifference S (contentAfter later T) := by
  induction later generalizing earlier T with
  | nil => exact ⟨earlier, rfl, hentity, hgraph, hearlier⟩
  | cons c rest ih =>
      obtain ⟨hc, hrest⟩ := List.forall_mem_cons.mp hlater
      obtain ⟨removed, added, hupdate⟩ := hc.update
      have hstep : c.edit.IsDifference T (c.edit.contentAfter T) := by
        rw [hupdate]
        exact Edit.isDifference_of_exactAt (hupdate ▸ hexact.1)
      obtain ⟨edit, hmerge, hedit⟩ := hearlier.merge? hstep
      have hfold : Change.merge? (.inGraph earlier) (.inGraph c) =
          some (.inGraph { earlier with edit }) := by
        rw [Change.merge?, hc.merge?_eq hentity hgraph, hmerge]
        rfl
      rw [List.map_cons, List.foldlM_cons, hfold]
      exact ih hentity hgraph hedit hrest hexact.2

/-- Updates that are folded into an overwrite are carried out on its content. -/
theorem foldlM_merge?_of_overwrite {content : Quads} (hentity : earlier.entity = e)
    (hgraph : earlier.graphTerm = graph) (hearlier : earlier.edit = .overwrite content)
    (hlater : ∀ c ∈ later, c.Updates e graph) :
    (later.map Change.inGraph).foldlM Change.merge? (.inGraph earlier) =
      some (.inGraph { earlier with
        edit := .overwrite (Change.replay (later.map .inGraph) content) }) := by
  induction later generalizing earlier content with
  | nil =>
      rw [Change.replay, List.map_nil, List.foldl_nil, ← hearlier]
      rfl
  | cons c rest ih =>
      obtain ⟨hc, hrest⟩ := List.forall_mem_cons.mp hlater
      obtain ⟨removed, added, hupdate⟩ := hc.update
      have hfold : Change.merge? (.inGraph earlier) (.inGraph c) =
          some (.inGraph { earlier with
            edit := .overwrite (Change.apply (.inGraph c) content) }) := by
        rw [Change.merge?, hc.merge?_eq hentity hgraph, hearlier, Change.apply, hupdate]
        rfl
      rw [List.map_cons, List.foldlM_cons, hfold]
      exact ih hentity hgraph rfl hrest

/-- Replaying updates does to a set of quads what they do to the content of a graph. -/
theorem members_replay (hlater : ∀ c ∈ later, c.Updates e graph) (content : Quads) :
    (Change.replay (later.map .inGraph) content).members = contentAfter later content.members := by
  induction later generalizing content with
  | nil => rfl
  | cons c rest ih =>
      obtain ⟨hc, hrest⟩ := List.forall_mem_cons.mp hlater
      obtain ⟨removed, added, hupdate⟩ := hc.update
      have hstep : (Change.apply (.inGraph c) content).members =
          c.edit.contentAfter content.members := by
        rw [Change.apply, hupdate, Edit.members_apply_update]
      calc (Change.replay ((c :: rest).map .inGraph) content).members
          = (Change.replay (rest.map .inGraph) (Change.apply (.inGraph c) content)).members := rfl
        _ = contentAfter rest (Change.apply (.inGraph c) content).members := ih hrest _
        _ = contentAfter (c :: rest) content.members := by
            rw [hstep]
            rfl

/-- Folding a chain of updates that one entity makes in one graph never fails.  If the
first of them is exact at a set of quads and each of the others at what those before it
leave, an update of the same entity and graph comes of it.  It takes away what the set
has lost in the end, adds what is new in it, and is empty if nothing has changed.  Folded
into an overwrite, exact or not, the updates are carried out on its content one after the
other. -/
theorem foldlM_merge?_updates {e : Entity} {graph : Option Term} {first : GraphEdit}
    {later : List GraphEdit} (hlater : ∀ c ∈ later, c.Updates e graph)
    (hentity : first.entity = e) (hgraph : first.graphTerm = graph) :
    (∀ S removed added, first.edit = .update removed added → ExactAlong S (first :: later) →
      let T := contentAfter (first :: later) S
      ∃ merged : GraphEdit,
        (later.map Change.inGraph).foldlM Change.merge? (.inGraph first) =
          some (.inGraph merged) ∧
        merged.entity = e ∧ merged.graphTerm = graph ∧
        merged.edit.Exchanges (S \ T) (T \ S) ∧ (merged.isEmpty = true ↔ T = S)) ∧
    (∀ content, first.edit = .overwrite content →
      let replayed := Change.replay (later.map .inGraph) content
      (later.map Change.inGraph).foldlM Change.merge? (.inGraph first) =
        some (.inGraph { first with edit := .overwrite replayed }) ∧
      replayed.members = contentAfter later content.members) := by
  constructor
  · intro S removed added hupdate hexact T
    have hstep : first.edit.IsDifference S (first.edit.contentAfter S) := by
      rw [hupdate]
      exact Edit.isDifference_of_exactAt (hupdate ▸ hexact.1)
    obtain ⟨merged, hfold, hentity, hgraph, hdifference⟩ :=
      foldlM_merge?_of_isDifference hentity hgraph hstep hlater hexact.2
    exact ⟨merged, hfold, hentity, hgraph, hdifference, hdifference.isEmpty_iff⟩
  · intro content hoverwrite replayed
    exact ⟨foldlM_merge?_of_overwrite hentity hgraph hoverwrite hlater, members_replay hlater content⟩

open Sample in
/-- One quad takes the place of another, which then comes back.  The two updates are folded
into one that is empty. -/
theorem foldlM_merge?_back_and_forth :
    let there := Quads.ofList [fact (.iri person) knows (.iri friend)]
    let new := Quads.ofList [fact (.iri person) livesAt (.iri friend)]
    let first : GraphEdit := ⟨.iri person, none, .update there new⟩
    let second : GraphEdit := ⟨.iri person, none, .update new there⟩
    ExactAlong there.members [first, second] ∧
      ∃ merged, [Change.inGraph second].foldlM Change.merge? (.inGraph first) =
        some (.inGraph merged) ∧ merged.edit.Exchanges ∅ ∅ ∧ merged.isEmpty = true := by
  intro there new first second
  have hsecond : ∀ c ∈ [second], c.Updates (.iri person) none :=
    List.forall_mem_singleton.mpr ⟨rfl, rfl, _, _, rfl⟩
  have hapart : new.members ∩ there.members = ∅ := by
    refine Set.eq_empty_iff_forall_notMem.mpr fun q ⟨hnew, hthere⟩ => ?_
    change (Quads.ofList _).contains q = true at hnew hthere
    rw [Quads.contains_ofList, List.contains_cons, List.contains_nil, Bool.or_false]
      at hnew hthere
    have hsame : (fact (.iri person) livesAt (.iri friend) ==
        fact (.iri person) knows (.iri friend)) = true := BEq.trans (BEq.symm hnew) hthere
    exact absurd hsame (by decide)
  have hmoved : first.edit.contentAfter there.members = new.members := by
    show there.members \ there.members ∪ new.members = new.members
    rw [Set.sdiff_self, Set.empty_union]
  have hback : contentAfter [first, second] there.members = there.members := by
    show second.edit.contentAfter (first.edit.contentAfter there.members) = there.members
    rw [hmoved]
    show new.members \ new.members ∪ there.members = there.members
    rw [Set.sdiff_self, Set.empty_union]
  have hexact : ExactAlong there.members [first, second] := by
    refine ⟨⟨subset_rfl, hapart⟩, ?_, trivial⟩
    rw [hmoved]
    exact ⟨subset_rfl, (Set.inter_comm _ _).trans hapart⟩
  have hentity : first.entity = .iri person := rfl
  have hgraph : first.graphTerm = none := rfl
  obtain ⟨merged, hfold, -, -, hexchanges, hempty⟩ :=
    (foldlM_merge?_updates hsecond hentity hgraph).1 there.members there new rfl hexact
  rw [hback, Set.sdiff_self] at hexchanges
  exact ⟨hexact, merged, hfold, hexchanges, hempty.mpr hback⟩

end GraphEdit

end QuadSession

import QuadSession.Quads

/-!
# Changes

A change says how the data that a session was loaded from has to be altered.
Most changes are edits of a single graph, made on behalf of one entity: an
update takes quads away and adds others, an overwrite states the whole content of
the graph.  Two changes reach into every graph: one drops all quads of an
entity, the other all references to it.

Consecutive edits that one entity makes in one graph can often be told as one.
Only an overwrite that follows an update cannot be folded into it.

## Main definitions

* `Edit`, `GraphEdit` and `Change`.
* `Edit.merge?` folds a later edit into an earlier one, and `Change.merge?` does
  so for changes.

## Main statements

* `Edit.isSome_merge?`, `GraphEdit.isSome_merge?` and `Change.isSome_merge?`
  say when folding succeeds.
-/

namespace QuadSession

/-! ## Edits of a graph -/

/-- What is done to the quads of one graph. -/
inductive Edit where
  /-- Takes quads away, and adds quads. -/
  | update (removed added : Quads)
  /-- Puts the given quads in the place of everything the graph holds. -/
  | overwrite (content : Quads)

namespace Edit

/-- Whether the edit names no quads.  It is then taken for no edit at all, even if it
is an overwrite. -/
def isEmpty : Edit → Bool
  | update removed added => removed.isEmpty && added.isEmpty
  | overwrite content => content.isEmpty

/-- Whether a later edit can be folded into the first one.  An update knows
nothing of the content that an overwrite states. -/
def absorbs : Edit → Edit → Bool
  | update _ _, overwrite _ => false
  | _, _ => true

/-- One edit in place of an earlier and a later one.  In a composed update a quad
that is added by one and removed by the other cancels out. -/
def merge? : Edit → Edit → Option Edit
  | update removed added, update removed' added' =>
    some (update
      (Quads.union (Quads.diff removed added') (Quads.diff removed' added))
      (Quads.union (Quads.diff added removed') (Quads.diff added' removed)))
  | overwrite content, update removed added =>
    some (overwrite (Quads.union (Quads.diff content removed) added))
  | overwrite _, overwrite content => some (overwrite content)
  | update _ _, overwrite _ => none

theorem isSome_merge? (earlier later : Edit) :
    (earlier.merge? later).isSome = earlier.absorbs later := by
  cases earlier <;> cases later <;> rfl

/-- Edits are equal when they do the same with the same statements. -/
protected def beq : Edit → Edit → Bool
  | update removed added, update removed' added' =>
    Quads.statements removed == Quads.statements removed' &&
      Quads.statements added == Quads.statements added'
  | overwrite content, overwrite content' =>
    Quads.statements content == Quads.statements content'
  | _, _ => false

instance : BEq Edit := ⟨Edit.beq⟩

end Edit

/-! ## Changes of one graph -/

/-- An edit of a graph on behalf of an entity.  Without a graph it is the default
graph that is edited. -/
structure GraphEdit where
  entity : Entity
  graph : Option Node
  edit : Edit

namespace GraphEdit

def graphTerm (c : GraphEdit) : Option Term :=
  c.graph.map Node.term

def isEmpty (c : GraphEdit) : Bool :=
  c.edit.isEmpty

/-- Whether a later change can be folded into the first one: both are made for
the same entity in the same graph, and the edits permit it. -/
def absorbs (earlier later : GraphEdit) : Bool :=
  earlier.edit.absorbs later.edit && earlier.entity == later.entity &&
    earlier.graphTerm == later.graphTerm

/-- One change in place of an earlier and a later one.  Of two overwrites the later
one remains as it is. -/
def merge? (earlier later : GraphEdit) : Option GraphEdit :=
  if earlier.absorbs later then
    match earlier.edit, later.edit with
    | .overwrite _, .overwrite _ => some later
    | _, _ => (earlier.edit.merge? later.edit).map fun edit => { earlier with edit }
  else none

theorem isSome_merge? (earlier later : GraphEdit) :
    (earlier.merge? later).isSome = earlier.absorbs later := by
  unfold merge?
  split
  · rename_i h
    have hsome : (earlier.edit.merge? later.edit).isSome = true := by
      rw [Edit.isSome_merge?]
      simp only [absorbs, Bool.and_eq_true] at h
      exact h.1.1
    rw [h]
    split
    · rfl
    · rw [Option.isSome_map, hsome]
  · rename_i h
    exact (Bool.eq_false_iff.mpr h).symm

protected def beq (a b : GraphEdit) : Bool :=
  a.entity == b.entity && a.graphTerm == b.graphTerm && a.edit == b.edit

instance : BEq GraphEdit := ⟨GraphEdit.beq⟩

/-- The name of the graph. -/
def renderGraph (graph : Option Node) : String :=
  match graph with
  | some graph => graph.render
  | none => "DEFAULT"

def render (c : GraphEdit) : String :=
  match c.edit with
  | .update removed added =>
    "GraphUpdate(" ++ c.entity.render ++ ", " ++ renderGraph c.graph ++
      ", removed: [" ++ Quads.render removed ++ "], added: [" ++ Quads.render added ++ "])"
  | .overwrite content =>
    "GraphReconstruct(" ++ c.entity.render ++ ", " ++ renderGraph c.graph ++
      ", content: [" ++ Quads.render content ++ "])"

end GraphEdit

/-! ## Changes -/

/-- Where a change applies. -/
inductive Scope where
  | graph (graph : Option Node)
  | everyGraph

/-- A change of the data that a session was loaded from. -/
inductive Change where
  | inGraph (change : GraphEdit)
  /-- Drops the quads that the entity owns, in every graph. -/
  | dropEntity (entity : Entity)
  /-- Drops the quads that have the entity as their object, in every graph. -/
  | dropReferences (entity : Entity)

namespace Change

/-- The entity on whose behalf the change is made. -/
def entity : Change → Entity
  | inGraph change => change.entity
  | dropEntity e => e
  | dropReferences e => e

def scope : Change → Scope
  | inGraph change => .graph change.graph
  | dropEntity _ => .everyGraph
  | dropReferences _ => .everyGraph

/-- Whether the change reaches into every graph. -/
def crossesGraphs : Change → Bool
  | inGraph _ => false
  | dropEntity _ => true
  | dropReferences _ => true

/-- Whether the change is an edit of the given graph. -/
def editsGraph (c : Change) (graph : Option Term) : Bool :=
  match c with
  | inGraph change => change.graphTerm == graph
  | dropEntity _ => false
  | dropReferences _ => false

/-- Whether the change is an edit that names no quads. -/
def isEmpty : Change → Bool
  | inGraph change => change.isEmpty
  | dropEntity _ => false
  | dropReferences _ => false

/-- Whether a later change can be folded into the first one. -/
def absorbs : Change → Change → Bool
  | inGraph earlier, inGraph later => earlier.absorbs later
  | _, _ => false

/-- One change in place of an earlier and a later one. -/
def merge? : Change → Change → Option Change
  | inGraph earlier, inGraph later => (earlier.merge? later).map inGraph
  | _, _ => none

theorem isSome_merge? (earlier later : Change) :
    (earlier.merge? later).isSome = earlier.absorbs later := by
  cases earlier <;> cases later <;> simp [merge?, absorbs, GraphEdit.isSome_merge?]

protected def beq : Change → Change → Bool
  | inGraph a, inGraph b => a == b
  | dropEntity a, dropEntity b => a == b
  | dropReferences a, dropReferences b => a == b
  | _, _ => false

instance : BEq Change := ⟨Change.beq⟩

def render : Change → String
  | inGraph change => change.render
  | dropEntity e => "EntityDelete(" ++ e.render ++ ")"
  | dropReferences e => "RemoveReferences(" ++ e.render ++ ")"

end Change

end QuadSession

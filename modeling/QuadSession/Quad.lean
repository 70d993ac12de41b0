import QuadSession.Entity
import QuadSession.Node

/-!
# Quads

A quad says that an entity has an object for a predicate, in a named graph or in
the default graph.  Its subject is the term of the entity that owns it, so the
owner is stored and the subject is read off.

## Main definitions

* `Predicate` is a node that may stand between subject and object.
* `Quad` is a quad as it was read; `Quad.statement` is what it states, without
  the origins of its nodes.  Quads are compared by their statements.
* `Slot` is the place in which the values of one predicate of one subject are
  found, whatever their graph.
-/

namespace QuadSession

/-! ## Predicates -/

/-- A node that is not a literal. -/
structure Predicate where
  node : Node
  not_literal : node.term.isLiteral = false

namespace Predicate

def term (p : Predicate) : Term :=
  p.node.term

/-- The node as a predicate, refused if it is a literal. -/
def ofNode (n : Node) : Except KindMismatch Predicate :=
  if h : n.term.isLiteral = false then .ok ⟨n, h⟩
  else .error ⟨[.iri, .blank], n.term.kind⟩

theorem ofNode_eq_ok {n : Node} {p : Predicate} : ofNode n = .ok p ↔ p.node = n := by
  unfold ofNode
  split
  · rename_i h
    cases p
    simp [eq_comm]
  · rename_i h
    simp only [reduceCtorEq, false_iff]
    rintro rfl
    exact h p.not_literal

theorem ofNode_of_isLiteral {n : Node} (h : n.term.isLiteral = true) :
    ofNode n = .error ⟨[.iri, .blank], .literal⟩ := by
  obtain ⟨value, hvalue⟩ := Term.isLiteral_iff.mp h
  simp [ofNode, hvalue, Term.isLiteral, Term.kind]

end Predicate

/-! ## Statements and slots -/

/-- What a quad states: four terms, the last one absent in the default
graph. -/
structure Statement where
  subject : Term
  predicate : Term
  object : Term
  graph : Option Term
deriving DecidableEq, Repr

namespace Statement

/-- Statements are ordered by subject, predicate, object and graph, in that
order of weight, the default graph coming first. -/
instance : Ord Statement :=
  ⟨compareLex (compareOn subject)
    (compareLex (compareOn predicate) (compareLex (compareOn object) (compareOn graph)))⟩

theorem compare_def (a b : Statement) :
    compare a b = (compare a.subject b.subject).then ((compare a.predicate b.predicate).then
      ((compare a.object b.object).then (compare a.graph b.graph))) := rfl

instance : Std.TransOrd Statement :=
  inferInstanceAs (Std.TransCmp (compareLex (compareOn subject)
    (compareLex (compareOn predicate) (compareLex (compareOn object) (compareOn graph)))))

instance : Std.LawfulEqOrd Statement where
  compare_self := Std.ReflCmp.compare_self
  eq_of_compare {a b} h := by
    rw [compare_def] at h
    simp only [Ordering.then_eq_eq, Std.LawfulEqOrd.compare_eq_iff_eq] at h
    cases a
    cases b
    rw [mk.injEq]
    exact h

end Statement

/-- A subject and a predicate.  The subject of a quad has no origin, so it is a
term; its predicate may have one. -/
structure Slot where
  subject : Term
  predicate : Node

namespace Slot

/-- Slots are equal when their terms are. -/
instance : BEq Slot := ⟨fun a b => a.subject == b.subject && a.predicate == b.predicate⟩

theorem beq_iff {a b : Slot} :
    (a == b) = true ↔ a.subject = b.subject ∧ a.predicate.term = b.predicate.term := by
  change (a.subject == b.subject && a.predicate == b.predicate) = true ↔ _
  rw [Bool.and_eq_true, beq_iff_eq, Node.beq_iff]

instance : EquivBEq Slot where
  rfl := beq_iff.mpr ⟨rfl, rfl⟩
  symm h := beq_iff.mpr ⟨(beq_iff.mp h).1.symm, (beq_iff.mp h).2.symm⟩
  trans h k := beq_iff.mpr
    ⟨(beq_iff.mp h).1.trans (beq_iff.mp k).1, (beq_iff.mp h).2.trans (beq_iff.mp k).2⟩

/-- Slots are ordered by subject, and by predicate for one subject. -/
instance : Ord Slot := ⟨compareLex (compareOn subject) (compareOn predicate)⟩

theorem compare_def (a b : Slot) :
    compare a b = (compare a.subject b.subject).then (compare a.predicate b.predicate) := rfl

instance : Std.TransOrd Slot :=
  inferInstanceAs (Std.TransCmp (compareLex (compareOn subject) (compareOn predicate)))

theorem compare_eq_iff {a b : Slot} :
    compare a b = .eq ↔ a.subject = b.subject ∧ a.predicate.term = b.predicate.term := by
  rw [compare_def, Ordering.then_eq_eq, Std.LawfulEqOrd.compare_eq_iff_eq, Node.compare_eq_iff]

instance : Std.LawfulBEqOrd Slot where
  compare_eq_iff_beq := compare_eq_iff.trans beq_iff.symm

end Slot

/-! ## Quads -/

/-- A quad of the entity `owner`.  Without a graph it lies in the default
graph. -/
structure Quad where
  owner : Entity
  predicate : Predicate
  object : Node
  graph : Option Node

namespace Quad

/-- The subject, which is the term of the owner. -/
def subject (q : Quad) : Term :=
  q.owner.toTerm

/-- The term of the graph, absent for the default graph. -/
def graphTerm (q : Quad) : Option Term :=
  q.graph.map Node.term

def statement (q : Quad) : Statement :=
  ⟨q.subject, q.predicate.term, q.object.term, q.graphTerm⟩

/-- The place in which the quad is found.  It keeps the predicate as it was
read. -/
def slot (q : Quad) : Slot :=
  ⟨q.subject, q.predicate.node⟩

/-- The quad of an entity whose predicate is still to be checked. -/
def make (owner : Entity) (predicate object : Node) (graph : Option Node) :
    Except KindMismatch Quad :=
  (Predicate.ofNode predicate).map fun predicate => ⟨owner, predicate, object, graph⟩

/-- Quads are equal when they state the same. -/
instance : BEq Quad := ⟨fun a b => a.statement == b.statement⟩

theorem beq_iff {a b : Quad} : (a == b) = true ↔ a.statement = b.statement :=
  beq_iff_eq (a := a.statement) (b := b.statement)

instance : EquivBEq Quad where
  rfl := beq_iff.mpr rfl
  symm h := beq_iff.mpr (beq_iff.mp h).symm
  trans h k := beq_iff.mpr ((beq_iff.mp h).trans (beq_iff.mp k))

/-- Quads are ordered as their statements are. -/
instance : Ord Quad := ⟨compareOn statement⟩

theorem compare_def (a b : Quad) : compare a b = compare a.statement b.statement := rfl

instance : Std.TransOrd Quad := inferInstanceAs (Std.TransCmp (compareOn statement))

theorem compare_eq_iff {a b : Quad} : compare a b = .eq ↔ a.statement = b.statement := by
  rw [compare_def]
  exact Std.LawfulEqOrd.compare_eq_iff_eq

instance : Std.LawfulBEqOrd Quad where
  compare_eq_iff_beq := compare_eq_iff.trans beq_iff.symm

theorem compare_beq_eq (a b : Quad) : (compare a b == .eq) = (a == b) := by
  rw [Bool.eq_iff_iff, beq_iff_eq]
  exact Std.LawfulBEqOrd.compare_eq_iff_beq

theorem compare_bne_eq (a b : Quad) : (compare a b != .eq) = !(a == b) :=
  congrArg not (compare_beq_eq a b)

/-- Quads that state the same have the same owner. -/
theorem owner_eq_of_statement_eq {a b : Quad} (h : a.statement = b.statement) :
    a.owner = b.owner :=
  Entity.toTerm_injective (congrArg Statement.subject h)

theorem object_eq_of_beq {a b : Quad} (h : (a == b) = true) : a.object.term = b.object.term :=
  congrArg Statement.object (beq_iff.mp h)

theorem graphTerm_eq_of_beq {a b : Quad} (h : (a == b) = true) : a.graphTerm = b.graphTerm :=
  congrArg Statement.graph (beq_iff.mp h)

/-- The same quad in another graph. -/
def inGraph (q : Quad) (graph : Option Node) : Quad :=
  { q with graph }

/-- Whether two quads state the same up to their graphs. -/
def agreesUpToGraph (a b : Quad) : Bool :=
  a.subject == b.subject && a.predicate.term == b.predicate.term &&
    a.object.term == b.object.term

/-- Whether the subject or the object is a blank node. -/
def involvesBlank (q : Quad) : Bool :=
  q.owner.isBlank || q.object.isBlank

/-- The terms of the quad between blanks, ended by a full stop. -/
def render (q : Quad) : String :=
  q.subject.render ++ " " ++ q.predicate.node.render ++ " " ++ q.object.render ++
    (match q.graph with
      | some graph => " " ++ graph.render
      | none => "") ++ " ."

end Quad

end QuadSession

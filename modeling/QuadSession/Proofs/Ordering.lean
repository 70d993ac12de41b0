import Mathlib.Data.List.Forall2
import QuadSession.Proofs.Sample
import QuadSession.Sorting

/-!
# Orders that agree with equality

Answers are sorted by an order and rid of repeats by an equality.  This gives one answer
only if the order is total and calls two items equal exactly when the equality does.
The equality of nodes looks past the graph that a blank node was read from, so it is not
the equality of values, and the order has to look past it too.

## Strategy

A list that was sorted and rid of repeats is strictly ascending.  Two strictly ascending
lists with the same items up to equality agree item by item
(`forall₂_beq_of_ascending`), since the first items of both are least.  So it does not
matter in which order the items came, how often they came, or how a sort has put those
that are equal.

What it means that two nodes, entities or quads are equal is said part by part, without
the order (`Node.Same`, `Entity.Same`, `Quad.Same`).

## Main definitions

* `Arranges`: a list holds given items in ascending order.
* `OrdersUpTo`: the order is total and agrees with an equality.
* `ListsOnceUpTo`: sorting and dropping repeats lists all items once, and in one way.

## Main statements

* `Term.compare_eq`, `Entity.compare_eq` and `Quad.compare_eq`: how items are compared,
  kind by kind and part by part.
* `sorts_up_to_equality`: the orders of nodes, entities and quads agree with their
  equalities, and sorted lists of them are the same up to equality.
-/

namespace QuadSession

/-! ## Lists up to an equality -/

section

variable {α : Type}

/-- Up to the equality, each list has the items of the other one. -/
def HoldAlike (same : α → α → Prop) (items others : List α) : Prop :=
  (∀ a ∈ items, ∃ b ∈ others, same a b) ∧ ∀ b ∈ others, ∃ a ∈ items, same a b

/-- The list holds the items in ascending order.  Items that compare as equal may stand in
any order. -/
structure Arranges [Ord α] (ascending items : List α) : Prop where
  perm : ascending.Perm items
  pairwise : ascending.Pairwise fun a b => (compare a b).isLE = true

/-- The order is total, and both the order and the equality call items equal that are the
same and no others. -/
structure OrdersUpTo [Ord α] [BEq α] (same : α → α → Prop) : Prop where
  eq_iff : ∀ a b : α, compare a b = .eq ↔ same a b
  beq_iff : ∀ a b : α, (a == b) = true ↔ same a b
  swap : ∀ a b : α, compare b a = (compare a b).swap
  antisymm : ∀ a b : α, (compare a b).isLE = true → (compare b a).isLE = true → same a b
  trans : ∀ a b c : α, (compare a b).isLE = true → (compare b c).isLE = true →
    (compare a c).isLE = true
  total : ∀ a b : α, (compare a b).isLE = true ∨ (compare b a).isLE = true

/-- However items are sorted, dropping the repeats leaves all of them up to the equality,
no two of them the same.  If other items are the same, in whatever order and however
often they come, they lead to the same list. -/
structure ListsOnceUpTo [Ord α] [BEq α] (same : α → α → Prop) : Prop where
  arranges_sorted : ∀ items : List α, Arranges (sorted items) items
  subset : ∀ {items ascending : List α}, Arranges ascending items →
    withoutRepeats ascending ⊆ items
  holdAlike : ∀ {items ascending : List α}, Arranges ascending items →
    HoldAlike same items (withoutRepeats ascending)
  apart : ∀ {items ascending : List α}, Arranges ascending items →
    (withoutRepeats ascending).Pairwise fun a b => ¬ same a b
  unique : ∀ {items others ascending ascending' : List α}, Arranges ascending items →
    Arranges ascending' others → HoldAlike same items others →
    List.Forall₂ same (withoutRepeats ascending) (withoutRepeats ascending')

variable [BEq α] {same : α → α → Prop}

theorem holdAlike_iff [EquivBEq α] (hsame : ∀ a b : α, (a == b) = true ↔ same a b)
    {items others : List α} :
    HoldAlike same items others ↔ ∀ x, items.contains x = others.contains x := by
  simp only [HoldAlike, ← hsame]
  constructor
  · rintro ⟨hthere, hback⟩ x
    rw [Bool.eq_iff_iff, List.contains_iff_exists_mem_beq, List.contains_iff_exists_mem_beq]
    constructor
    · rintro ⟨a, ha, hxa⟩
      obtain ⟨b, hb, hab⟩ := hthere a ha
      exact ⟨b, hb, BEq.trans hxa hab⟩
    · rintro ⟨b, hb, hxb⟩
      obtain ⟨a, ha, hab⟩ := hback b hb
      exact ⟨a, ha, BEq.trans hxb (BEq.symm hab)⟩
  · intro h
    constructor
    · intro a ha
      have hin : items.contains a = true :=
        List.contains_iff_exists_mem_beq.mpr ⟨a, ha, BEq.refl a⟩
      rw [h] at hin
      exact List.contains_iff_exists_mem_beq.mp hin
    · intro b hb
      have hin : others.contains b = true :=
        List.contains_iff_exists_mem_beq.mpr ⟨b, hb, BEq.refl b⟩
      rw [← h] at hin
      obtain ⟨a, ha, hba⟩ := List.contains_iff_exists_mem_beq.mp hin
      exact ⟨a, ha, BEq.symm hba⟩

/-! ## Strictly ascending lists -/

section

variable [Ord α] [Std.LawfulBEqOrd α]

theorem beq_eq_false_of_lt {a b : α} (h : compare a b = .lt) : (a == b) = false := by
  rw [← Bool.not_eq_true, ← Std.LawfulBEqOrd.compare_eq_iff_beq, h]
  exact Ordering.noConfusion

/-- The first item does not come again. -/
theorem contains_tail_of_ascending [EquivBEq α] {a x : α} {rest : List α}
    (h : (a :: rest).Pairwise fun a b => compare a b = .lt) :
    rest.contains x = ((a :: rest).contains x && !(x == a)) := by
  rw [List.contains_cons]
  by_cases hxa : (x == a) = true
  · have hnone : rest.contains x = false := by
      rw [← Bool.not_eq_true, List.contains_iff_exists_mem_beq]
      rintro ⟨b, hb, hxb⟩
      have hab : (a == b) = true := BEq.trans (BEq.symm hxa) hxb
      rw [beq_eq_false_of_lt ((List.pairwise_cons.mp h).1 b hb)] at hab
      exact Bool.false_ne_true hab
    rw [hxa, hnone]
    rfl
  · rw [Bool.eq_false_iff.mpr hxa, Bool.false_or, Bool.not_false, Bool.and_true]

/-- The first item comes before every other item of the list. -/
theorem lt_of_contains_of_ascending [Std.TransOrd α] [EquivBEq α] {a x : α} {rest : List α}
    (h : (a :: rest).Pairwise fun a b => compare a b = .lt)
    (hx : (a :: rest).contains x = true) (hne : (x == a) = false) : compare a x = .lt := by
  rw [List.contains_cons, hne, Bool.false_or, List.contains_iff_exists_mem_beq] at hx
  obtain ⟨b, hb, hxb⟩ := hx
  have hab : compare a b = .lt := (List.pairwise_cons.mp h).1 b hb
  exact Std.TransCmp.lt_of_lt_of_eq hab (Std.LawfulBEqOrd.compare_eq_iff_beq.mpr (BEq.symm hxb))

/-- Strictly ascending lists with the same items agree item by item. -/
theorem forall₂_beq_of_ascending [Std.TransOrd α] [EquivBEq α] {items others : List α}
    (hitems : items.Pairwise fun a b => compare a b = .lt)
    (hothers : others.Pairwise fun a b => compare a b = .lt)
    (h : ∀ x, items.contains x = others.contains x) :
    List.Forall₂ (fun a b => (a == b) = true) items others := by
  induction items generalizing others with
  | nil =>
      cases others with
      | nil => exact .nil
      | cons b rest' =>
          have hb := h b
          rw [List.contains_cons, BEq.refl] at hb
          exact Bool.noConfusion hb
  | cons a rest ih =>
      cases others with
      | nil =>
          have ha := h a
          rw [List.contains_cons, BEq.refl] at ha
          exact Bool.noConfusion ha
      | cons b rest' =>
          have hfirst : (a == b) = true := by
            by_contra hne
            rw [Bool.not_eq_true] at hne
            have ha : (b :: rest').contains a = true := by
              rw [← h, List.contains_cons, BEq.refl, Bool.true_or]
            have hb : (a :: rest).contains b = true := by
              rw [h, List.contains_cons, BEq.refl, Bool.true_or]
            -- each of the two would come before the other one
            have hlt : compare a b = .lt :=
              lt_of_contains_of_ascending hitems hb (BEq.comm.trans hne)
            exact Std.OrientedCmp.not_lt_of_lt hlt (lt_of_contains_of_ascending hothers ha hne)
          refine .cons hfirst (ih hitems.of_cons hothers.of_cons fun x => ?_)
          rw [contains_tail_of_ascending hitems, contains_tail_of_ascending hothers, h,
            BEq.congr_right hfirst]

end

/-! ## Orders up to an equality -/

theorem Arranges.contains_withoutRepeats [Ord α] [EquivBEq α] {items ascending : List α}
    (h : Arranges ascending items) (x : α) :
    (withoutRepeats ascending).contains x = items.contains x := by
  rw [QuadSession.contains_withoutRepeats, Bool.eq_iff_iff, List.contains_iff_exists_mem_beq,
    List.contains_iff_exists_mem_beq]
  simp only [h.perm.mem_iff]

variable [Ord α] [Std.TransOrd α] [Std.LawfulBEqOrd α]

theorem ordersUpTo (hsame : ∀ a b : α, (a == b) = true ↔ same a b) : OrdersUpTo same where
  eq_iff a b := Std.LawfulBEqOrd.compare_eq_iff_beq.trans (hsame a b)
  beq_iff := hsame
  swap _ _ := Std.OrientedOrd.eq_swap
  antisymm a b hab hba := by
    rw [← hsame, ← Std.LawfulBEqOrd.compare_eq_iff_beq]
    exact Std.OrientedCmp.isLE_antisymm hab hba
  trans _ _ _ hab hbc := Std.TransOrd.isLE_trans hab hbc
  total a b := by
    rw [Std.OrientedOrd.eq_swap (a := b) (b := a)]
    cases compare a b <;> simp

theorem listsOnceUpTo [EquivBEq α] (hsame : ∀ a b : α, (a == b) = true ↔ same a b) :
    ListsOnceUpTo same where
  arranges_sorted items := ⟨perm_sorted items, pairwise_sorted items⟩
  subset h := List.Subset.trans (withoutRepeats_sublist _).subset h.perm.subset
  holdAlike h := (holdAlike_iff hsame).mpr fun x => (h.contains_withoutRepeats x).symm
  apart h := by
    refine (pairwise_withoutRepeats h.pairwise).imp fun {a b} hlt hab => ?_
    rw [← hsame, beq_eq_false_of_lt hlt] at hab
    exact Bool.false_ne_true hab
  unique h h' hitems := by
    have hagree := forall₂_beq_of_ascending (pairwise_withoutRepeats h.pairwise)
      (pairwise_withoutRepeats h'.pairwise) fun x => by
        rw [h.contains_withoutRepeats, h'.contains_withoutRepeats,
          (holdAlike_iff hsame).mp hitems]
    exact hagree.imp fun a b => (hsame a b).mp

end

/-! ## How nodes, entities and quads are compared -/

/-- Blank nodes come before IRIs, and IRIs before literals.  Terms of one kind compare by
their texts: a blank node by those of its root and its label, a literal by those of its
value, its datatype and its tag. -/
theorem Term.compare_eq (a b : Term) : compare a b =
    match a, b with
    | .blank a, .blank b => (compare a.root.text b.root.text).then (compare a.label b.label)
    | .blank _, _ => .lt
    | .iri _, .blank _ => .gt
    | .iri a, .iri b => compare a.text b.text
    | .iri _, .literal _ => .lt
    | .literal a, .literal b => (compare a.value b.value).then
        ((compare a.datatype.text b.datatype.text).then (compare a.language b.language))
    | .literal _, _ => .gt := by
  cases a <;> cases b <;> first | rfl | exact Ordering.then_eq

/-- Entities with an IRI come before blank ones. -/
theorem Entity.compare_eq (a b : Entity) : compare a b =
    match a, b with
    | .iri a, .iri b => compare a.text b.text
    | .iri _, .blank _ => .lt
    | .blank _, .iri _ => .gt
    | .blank a, .blank b => (compare a.root.text b.root.text).then (compare a.label b.label) := by
  cases a <;> cases b <;> first | rfl | exact Ordering.then_eq

theorem Quad.compare_graph (a b : Quad) :
    compare a.graph b.graph = compare a.graphTerm b.graphTerm := by
  unfold graphTerm
  cases a.graph <;> cases b.graph <;> rfl

/-- Quads compare part by part.  The owner comes last, where it decides nothing. -/
theorem Quad.compare_eq (a b : Quad) : compare a b =
    (compare a.subject b.subject).then ((compare a.predicate.node b.predicate.node).then
      ((compare a.object b.object).then ((compare a.graph b.graph).then
        (compare a.owner b.owner)))) := by
  rw [compare_graph]
  show (compare a.subject b.subject).then ((compare a.predicate.node b.predicate.node).then
    ((compare a.object b.object).then (compare a.graphTerm b.graphTerm))) = _
  cases hsubject : compare a.subject b.subject with
  | lt => rfl
  | gt => rfl
  | eq =>
      have howner : a.owner = b.owner :=
        Entity.toTerm_injective (Std.LawfulEqOrd.eq_of_compare hsubject)
      rw [howner, Std.ReflOrd.compare_self, Ordering.then_eq]

/-! ## When nodes, entities and quads are the same -/

/-- Two nodes are of the same kind and have the same texts.  It is not asked from which
graph a blank node was read. -/
def Node.Same (a b : Node) : Prop :=
  match a.term, b.term with
  | .iri a, .iri b => a.text = b.text
  | .literal a, .literal b =>
    a.value = b.value ∧ a.datatype.text = b.datatype.text ∧ a.language = b.language
  | .blank a, .blank b => a.label = b.label ∧ a.root.text = b.root.text
  | _, _ => False

/-- Two entities are of the same kind and have the same texts. -/
def Entity.Same (a b : Entity) : Prop :=
  match a, b with
  | .iri a, .iri b => a.text = b.text
  | .blank a, .blank b => a.label = b.label ∧ a.root.text = b.root.text
  | _, _ => False

/-- Two quads are the same in all their parts. -/
structure Quad.Same (a b : Quad) : Prop where
  owner : a.owner.Same b.owner
  predicate : a.predicate.node.Same b.predicate.node
  object : a.object.Same b.object
  graph : Option.Rel Node.Same a.graph b.graph

theorem Iri.text_inj {a b : Iri} : a.text = b.text ↔ a = b := by
  cases a
  cases b
  rw [Iri.mk.injEq]

theorem Blank.ext_iff {a b : Blank} :
    a = b ↔ a.label = b.label ∧ a.root.text = b.root.text := by
  rw [Iri.text_inj]
  cases a
  cases b
  rw [Blank.mk.injEq, and_comm]

theorem Node.beq_iff_same {a b : Node} : (a == b) = true ↔ a.Same b := by
  rw [beq_iff, Same]
  cases a.term <;> cases b.term <;>
    simp only [reduceCtorEq, Term.iri.injEq, Term.literal.injEq, Term.blank.injEq, Iri.text_inj,
      Literal.ext_iff, Blank.ext_iff]

theorem Entity.beq_iff_same {a b : Entity} : (a == b) = true ↔ a.Same b := by
  rw [beq_iff_eq]
  cases a <;> cases b <;>
    simp only [Same, reduceCtorEq, Entity.iri.injEq, Entity.blank.injEq, Iri.text_inj,
      Blank.ext_iff]

theorem Quad.graphTerm_eq_iff {a b : Quad} :
    a.graphTerm = b.graphTerm ↔ Option.Rel Node.Same a.graph b.graph := by
  unfold graphTerm
  cases a.graph <;> cases b.graph <;> simp [← Node.beq_iff_same, Node.beq_iff]

theorem Quad.beq_iff_same {a b : Quad} : (a == b) = true ↔ a.Same b := by
  have hparts : a.statement = b.statement ↔
      a.owner.toTerm = b.owner.toTerm ∧ a.predicate.node.term = b.predicate.node.term ∧
        a.object.term = b.object.term ∧ a.graphTerm = b.graphTerm := by
    rw [statement, statement, Statement.mk.injEq]
    rfl
  rw [beq_iff, hparts, Entity.toTerm_inj, ← beq_iff_eq, Entity.beq_iff_same, ← Node.beq_iff,
    ← Node.beq_iff, Node.beq_iff_same, Node.beq_iff_same, graphTerm_eq_iff]
  exact ⟨fun ⟨howner, hpredicate, hobject, hgraph⟩ => ⟨howner, hpredicate, hobject, hgraph⟩,
    fun h => ⟨h.owner, h.predicate, h.object, h.graph⟩⟩

/-- Nodes, entities and quads are totally ordered up to their equality.  Nodes are the same
if they are of one kind and have the same texts, blank nodes whatever graph they were read
from.  However they are sorted, dropping those that repeat their predecessor leaves no two
that are the same, and up to equality the list is always the same. -/
theorem sorts_up_to_equality :
    (OrdersUpTo Node.Same ∧ ListsOnceUpTo Node.Same) ∧
      (OrdersUpTo Entity.Same ∧ ListsOnceUpTo Entity.Same) ∧
      OrdersUpTo Quad.Same ∧ ListsOnceUpTo Quad.Same :=
  ⟨⟨ordersUpTo fun _ _ => Node.beq_iff_same, listsOnceUpTo fun _ _ => Node.beq_iff_same⟩,
    ⟨ordersUpTo fun _ _ => Entity.beq_iff_same, listsOnceUpTo fun _ _ => Entity.beq_iff_same⟩,
    ordersUpTo fun _ _ => Quad.beq_iff_same, listsOnceUpTo fun _ _ => Quad.beq_iff_same⟩

open Sample in
/-- Of a blank node that was read from two graphs, the first copy stays. -/
example : (withoutRepeats [Node.blankFrom address friend, .blankFrom address person,
    .ofTerm (.iri person)]).map Node.origin = [some friend, none] := by
  decide

end QuadSession

import QuadSession.Term

/-!
# Entities

An entity is what a group of quads describes: something with an IRI, or a blank
node inside the scope of such a thing.  Every entity but not every term can be
described, so entities are the terms without the literals.  Their order differs
from that of terms: entities with an IRI come before blank ones.
-/

namespace QuadSession

/-- The owner of quads. -/
inductive Entity where
  | iri (iri : Iri)
  | blank (id : Blank)
deriving DecidableEq, Repr

namespace Entity

def isBlank : Entity → Bool
  | iri _ => false
  | blank _ => true

def iri? : Entity → Option Iri
  | iri name => some name
  | blank _ => none

def blank? : Entity → Option Blank
  | iri _ => none
  | blank id => some id

/-- The IRI of the entity whose scope this entity lives in: its own IRI, or the
root of the blank node. -/
def root : Entity → Iri
  | iri name => name
  | blank id => id.root

/-! ## Entities as terms -/

/-- The term that stands for the entity in a quad. -/
def toTerm : Entity → Term
  | iri name => .iri name
  | blank id => .blank id

/-- The entity that a term stands for.  Literals stand for none. -/
def ofTerm? : Term → Option Entity
  | .iri name => some (iri name)
  | .blank id => some (blank id)
  | .literal _ => none

@[simp] theorem ofTerm?_toTerm (e : Entity) : ofTerm? e.toTerm = some e := by
  cases e <;> rfl

theorem toTerm_injective {a b : Entity} (h : a.toTerm = b.toTerm) : a = b :=
  Option.some.inj (by rw [← ofTerm?_toTerm a, ← ofTerm?_toTerm b, h])

@[simp] theorem toTerm_inj {a b : Entity} : a.toTerm = b.toTerm ↔ a = b :=
  ⟨toTerm_injective, congrArg toTerm⟩

/-! ## Order -/

/-- An entity is determined by what it is as a blank node and as an IRI. -/
theorem ext_iff {a b : Entity} : a = b ↔ a.blank? = b.blank? ∧ a.iri? = b.iri? := by
  cases a <;> cases b <;> simp [blank?, iri?]

/-- Entities compare as blank nodes, then as IRIs, so those with an IRI come
before blank ones. -/
instance : Ord Entity := ⟨compareLex (compareOn blank?) (compareOn iri?)⟩

theorem compare_def (a b : Entity) :
    compare a b = (compare a.blank? b.blank?).then (compare a.iri? b.iri?) := rfl

instance : Std.TransOrd Entity :=
  inferInstanceAs (Std.TransCmp (compareLex (compareOn blank?) (compareOn iri?)))

instance : Std.LawfulEqOrd Entity where
  compare_self := Std.ReflCmp.compare_self
  eq_of_compare {a b} h := by
    rw [compare_def, Ordering.then_eq_eq] at h
    exact ext_iff.mpr
      ⟨Std.LawfulEqOrd.eq_of_compare h.1, Std.LawfulEqOrd.eq_of_compare h.2⟩

/-- The term of the entity as it is written in a line of quads. -/
def render : Entity → String
  | iri name => name.render
  | blank id => id.render

end Entity

end QuadSession

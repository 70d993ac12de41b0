import QuadSession.Quad

/-!
# A person and an address

A few terms and quads to instantiate general statements with: a person and a friend
with an IRI each, blank nodes in the scope of the person, and quads that tie them
together.
-/

namespace QuadSession.Sample

def person : Iri :=
  ⟨"http://example.com/person"⟩

def friend : Iri :=
  ⟨"http://example.com/friend"⟩

/-- A blank node in the scope of the person. -/
def address : Blank :=
  ⟨person, "address"⟩

/-- Another blank node in the same scope. -/
def street : Blank :=
  ⟨person, "street"⟩

def knows : Iri :=
  ⟨"http://example.com/knows"⟩

def livesAt : Iri :=
  ⟨"http://example.com/lives-at"⟩

/-- A quad of the default graph, its predicate given by an IRI. -/
def fact (owner : Entity) (predicate : Iri) (object : Term) : Quad where
  owner := owner
  predicate := ⟨.ofTerm (.iri predicate), rfl⟩
  object := .ofTerm object
  graph := none

end QuadSession.Sample

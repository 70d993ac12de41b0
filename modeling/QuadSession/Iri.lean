/-!
# IRIs as values

An IRI is its text.  Nothing is normalised, so two IRIs are equal exactly when
their texts are, and they are ordered by code point.  Which texts are
well-formed absolute IRIs is decided in `QuadSession.Iri.Grammar`; a value of
type `Iri` may hold any text.
-/

namespace QuadSession

/-- An IRI, held as the text it was written with. -/
structure Iri where
  text : String
deriving DecidableEq, Repr

namespace Iri

instance : Ord Iri := ⟨compareOn text⟩

instance : Std.TransOrd Iri := inferInstanceAs (Std.TransCmp (compareOn text))

instance : Std.LawfulEqOrd Iri where
  compare_self := Std.ReflCmp.compare_self
  eq_of_compare {a b} h := by
    cases a
    cases b
    exact congrArg Iri.mk (Std.LawfulEqOrd.eq_of_compare h)

/-- The IRI between angle brackets, its text unchanged. -/
def render (iri : Iri) : String :=
  "<" ++ iri.text ++ ">"

/-- The datatype of a literal that is plain text. -/
def xsdString : Iri :=
  ⟨"http://www.w3.org/2001/XMLSchema#string"⟩

/-- The datatype of every language-tagged literal. -/
def rdfLangString : Iri :=
  ⟨"http://www.w3.org/1999/02/22-rdf-syntax-ns#langString"⟩

end Iri

end QuadSession

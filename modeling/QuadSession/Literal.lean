import QuadSession.Iri
import QuadSession.Text.Escape

/-!
# Literals

A literal is a text with either a language tag or a datatype.  Plain text is a
literal with the datatype `Iri.xsdString`, so it needs no case of its own.  A
tagged literal has the datatype `Iri.rdfLangString`, and it differs from a
literal that was given this datatype without a tag.  Tags are kept as written.
-/

namespace QuadSession

/-- A text with a language tag or with a datatype. -/
inductive Literal where
  | tagged (value language : String)
  | typed (value : String) (datatype : Iri)
deriving DecidableEq, Repr

namespace Literal

/-- A literal that is plain text. -/
def plain (value : String) : Literal :=
  .typed value .xsdString

def value : Literal → String
  | tagged value _ => value
  | typed value _ => value

def datatype : Literal → Iri
  | tagged _ _ => .rdfLangString
  | typed _ datatype => datatype

def language : Literal → Option String
  | tagged _ language => some language
  | typed _ _ => none

/-- A literal is determined by what can be read off it. -/
theorem ext_iff {a b : Literal} :
    a = b ↔ a.value = b.value ∧ a.datatype = b.datatype ∧ a.language = b.language := by
  cases a <;> cases b <;> simp [value, datatype, language]

/-- Literals are ordered by value, then by datatype, then by language tag, where
no tag comes before every tag. -/
instance : Ord Literal :=
  ⟨compareLex (compareOn value) (compareLex (compareOn datatype) (compareOn language))⟩

theorem compare_def (a b : Literal) :
    compare a b = (compare a.value b.value).then
      ((compare a.datatype b.datatype).then (compare a.language b.language)) := rfl

instance : Std.TransOrd Literal :=
  inferInstanceAs (Std.TransCmp
    (compareLex (compareOn value) (compareLex (compareOn datatype) (compareOn language))))

instance : Std.LawfulEqOrd Literal where
  compare_self := Std.ReflCmp.compare_self
  eq_of_compare {a b} h := by
    rw [compare_def, Ordering.then_eq_eq, Ordering.then_eq_eq] at h
    exact ext_iff.mpr ⟨Std.LawfulEqOrd.eq_of_compare h.1, Std.LawfulEqOrd.eq_of_compare h.2.1,
      Std.LawfulEqOrd.eq_of_compare h.2.2⟩

/-- The quoted value, followed by the tag or by the datatype unless the literal
is plain text. -/
def render : Literal → String
  | tagged value language => Text.quoted value ++ "@" ++ language
  | typed value datatype =>
    if datatype = .xsdString then Text.quoted value
    else Text.quoted value ++ "^^" ++ datatype.render

end Literal

end QuadSession

import QuadSession.Blank
import QuadSession.Literal

/-!
# Terms

A term is what stands in a position of a quad: a blank node, an IRI or a
literal.  Terms carry what identifies them and nothing else, so equality of
terms is equality of values.

## Main definitions

* `Term` with its order: blank nodes come before IRIs, IRIs before literals.
* `Term.Kind` names the three kinds, and `KindMismatch` is the refusal of a term
  because of its kind.
-/

namespace QuadSession

/-- A blank node, an IRI or a literal. -/
inductive Term where
  | blank (id : Blank)
  | iri (iri : Iri)
  | literal (literal : Literal)
deriving DecidableEq, Repr

namespace Term

/-! ## Kinds -/

/-- The three kinds of terms. -/
inductive Kind where
  | blank
  | iri
  | literal
deriving DecidableEq, Repr

/-- The name of the kind in messages. -/
def Kind.name : Kind → String
  | .blank => "blank"
  | .iri => "URI"
  | .literal => "literal"

def kind : Term → Kind
  | blank _ => .blank
  | iri _ => .iri
  | literal _ => .literal

def isBlank : Term → Bool
  | blank _ => true
  | _ => false

def isIri : Term → Bool
  | iri _ => true
  | _ => false

def isLiteral : Term → Bool
  | literal _ => true
  | _ => false

def blank? : Term → Option Blank
  | blank id => some id
  | _ => none

def iri? : Term → Option Iri
  | iri name => some name
  | _ => none

def literal? : Term → Option Literal
  | literal value => some value
  | _ => none

theorem blank?_eq_some {t : Term} {id : Blank} : t.blank? = some id ↔ t = blank id := by
  cases t <;> simp [blank?]

theorem isBlank_iff {t : Term} : t.isBlank = true ↔ ∃ id, t = blank id := by
  cases t <;> simp [isBlank]

theorem isLiteral_iff {t : Term} : t.isLiteral = true ↔ ∃ value, t = literal value := by
  cases t <;> simp [isLiteral]

/-- The language tag of a tagged literal. -/
def language (t : Term) : Option String :=
  t.literal?.bind Literal.language

/-! ## Order -/

/-- A term is determined by what it is as a literal, as an IRI and as a blank
node. -/
theorem ext_iff {a b : Term} :
    a = b ↔ a.literal? = b.literal? ∧ a.iri? = b.iri? ∧ a.blank? = b.blank? := by
  cases a <;> cases b <;> simp [literal?, iri?, blank?]

/-- Terms compare as literals, then as IRIs, then as blank nodes, where a term
that is none comes before every term that is one.  So blank nodes come before
IRIs and IRIs before literals, and terms of one kind compare by value. -/
instance : Ord Term :=
  ⟨compareLex (compareOn literal?) (compareLex (compareOn iri?) (compareOn blank?))⟩

theorem compare_def (a b : Term) :
    compare a b = (compare a.literal? b.literal?).then
      ((compare a.iri? b.iri?).then (compare a.blank? b.blank?)) := rfl

instance : Std.TransOrd Term :=
  inferInstanceAs (Std.TransCmp
    (compareLex (compareOn literal?) (compareLex (compareOn iri?) (compareOn blank?))))

instance : Std.LawfulEqOrd Term where
  compare_self := Std.ReflCmp.compare_self
  eq_of_compare {a b} h := by
    rw [compare_def, Ordering.then_eq_eq, Ordering.then_eq_eq] at h
    exact ext_iff.mpr ⟨Std.LawfulEqOrd.eq_of_compare h.1, Std.LawfulEqOrd.eq_of_compare h.2.1,
      Std.LawfulEqOrd.eq_of_compare h.2.2⟩

/-- The term as it is written in a line of quads. -/
def render : Term → String
  | blank id => id.render
  | iri name => name.render
  | literal value => value.render

end Term

/-! ## Refusals -/

/-- A term of the wrong kind was passed where only the kinds in `expected` are
accepted. -/
structure KindMismatch where
  expected : List Term.Kind
  found : Term.Kind
deriving DecidableEq, Repr

namespace KindMismatch

/-- The accepted kinds, with the word between them. -/
def expectation (mismatch : KindMismatch) : String :=
  " or ".intercalate (mismatch.expected.map Term.Kind.name)

def message (mismatch : KindMismatch) : String :=
  "Expected a " ++ mismatch.expectation ++ " node, found a " ++ mismatch.found.name ++ " node."

end KindMismatch

/-- The blank node of a term that must be one. -/
def Term.expectBlank (t : Term) : Except KindMismatch Blank :=
  match t with
  | .blank id => .ok id
  | _ => .error ⟨[.blank], t.kind⟩

end QuadSession

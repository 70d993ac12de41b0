import QuadSession.Proofs.Indexed

/-!
# What the audit finds out

The audit walks through the primary set and through the entries of each index, and it
looks at the index of objects with the eyes of the index by owner.  Whatever the five
parts of a dataset hold, and even if several of them are damaged at once, it finds
nothing if and only if they agree.  One thing escapes it: a literal has no business in
the index of objects, but an entry for it is accepted if it lists owners of quads with
this literal.

## Strategy

The checks of an index of quads say that it files the primary set
(`Dataset.isSound_iff_files`), which comes to the right keys with the right quads
(`Multimap.files_iff_mirrors`).  The checks of the index of objects ask the index by
owner.  A fault there cannot hide one here, since it would be reported itself, and once
the index by owner files the primary set its answers are those of the primary set
(`Dataset.listsOwners_iff`).

## Main definitions

* `Multimap.Mirrors`: an index has the keys of the quads of a set, and their quads.
* `Dataset.ListsOwners`: the index of objects lists the owners of quads with an object.

## Main statements

* `Dataset.isSound_iff`: when the audit finds nothing.
-/

namespace QuadSession

/-! ## Indices of quads -/

namespace Multimap

variable {κ : Type} [Ord κ] {m : Multimap κ Quad} {key : Quad → κ} {s : Quads}

/-- The index has exactly the keys of the quads in the set, and lists under each key exactly
the quads with this key. -/
structure Mirrors (m : Multimap κ Quad) (key : Quad → κ) (s : Quads) : Prop where
  hasKey_iff : ∀ k, m.hasKey k = true ↔ ∃ q, s.contains q = true ∧ compare (key q) k = .eq
  contains_iff : ∀ k q, m.contains k q = true ↔ s.contains q = true ∧ compare (key q) k = .eq

theorem files_iff_mirrors [Std.TransOrd κ] : m.Files key s ↔ m.Mirrors key s := by
  rw [Files, lists_iff_hasKey]
  exact ⟨fun h => ⟨h.1, h.2⟩, fun h => ⟨h.hasKey_iff, h.contains_iff⟩⟩

end Multimap

/-! ## The index of objects -/

namespace Dataset

variable {d : Dataset}

/-- The entity owns a quad with the object. -/
def OwnsWith (d : Dataset) (e : Entity) (object : Term) : Prop :=
  ∃ q, d.contains q = true ∧ q.object.term = object ∧ q.owner = e

/-- No entry in the index of objects is empty.  Other than literals it has exactly the
objects of quads as keys, and lists under each of them exactly the owners of quads with
this object.  Under a literal it lists nobody but owners of quads with the literal. -/
structure ListsOwners (d : Dataset) : Prop where
  occupied : ∀ object entry, d.byObject.lookup? object = some entry → entry.isEmpty = false
  hasKey_iff : ∀ object, object.isLiteral = false →
    (d.byObject.hasKey object = true ↔ ∃ q, d.contains q = true ∧ q.object.term = object)
  contains_iff : ∀ object e, object.isLiteral = false →
    (d.byObject.contains object e = true ↔ d.OwnsWith e object)
  ownsWith_of_literal : ∀ object e, object.isLiteral = true →
    d.byObject.contains object e = true → d.OwnsWith e object

/-- The index of objects is in order if and only if the owner of each quad is listed for its
object, entries are not empty, and nobody is listed without owning a quad. -/
theorem listsOwners_iff : d.ListsOwners ↔
    (∀ q ∈ d.quads,
      q.object.isLiteral = false → d.byObject.contains q.object.term q.owner = true) ∧
      (∀ object entry, d.byObject.lookup? object = some entry → entry.isEmpty = false) ∧
      ∀ object e, d.byObject.contains object e = true → d.OwnsWith e object := by
  constructor
  · intro h
    refine ⟨fun q hq hliteral => ?_, h.occupied, fun object e hlisted => ?_⟩
    · exact (h.contains_iff _ _ hliteral).mpr ⟨q, contains_of_mem_quads hq, rfl, rfl⟩
    · cases hliteral : object.isLiteral with
      | true => exact h.ownsWith_of_literal object e hliteral hlisted
      | false => exact (h.contains_iff object e hliteral).mp hlisted
  · rintro ⟨hfound, hoccupied, hlisted⟩
    have hcontains : ∀ object e, object.isLiteral = false → d.OwnsWith e object →
        d.byObject.contains object e = true := by
      rintro object e hliteral ⟨q, hq, rfl, rfl⟩
      obtain ⟨x, hx, hxq⟩ := Quads.contains_iff_exists_mem.mp hq
      have hobject : x.object.term = q.object.term := congrArg Statement.object hxq
      rw [← hobject, ← Quad.owner_eq_of_statement_eq hxq]
      exact hfound x hx (by rw [Node.isLiteral, hobject]; exact hliteral)
    have hkeys : d.byObject.Lists fun object e => d.byObject.contains object e = true :=
      ⟨fun _ _ => Iff.rfl, hoccupied⟩
    refine ⟨hoccupied, fun object hliteral => ?_, fun object e hliteral => ?_,
      fun object e _ => hlisted object e⟩
    · rw [hkeys.hasKey_iff]
      constructor
      · rintro ⟨e, he⟩
        obtain ⟨q, hq, hobject, -⟩ := hlisted object e he
        exact ⟨q, hq, hobject⟩
      · rintro ⟨q, hq, hobject⟩
        exact ⟨q.owner, hcontains object q.owner hliteral ⟨q, hq, hobject, rfl⟩⟩
    · exact ⟨hlisted object e, hcontains object e hliteral⟩

/-! ## All checks together -/

/-- Whatever a dataset holds in its primary set and its indices, the audit finds nothing if
and only if the indices by owner, by subject and by slot have exactly the keys of the
quads in the primary set with exactly the quads of each key, and the index of objects
lists the owners of quads with an object. -/
theorem isSound_iff (d : Dataset) : d.isSound = true ↔
    d.byOwner.Mirrors Quad.owner d.primary ∧ d.bySubject.Mirrors Quad.subject d.primary ∧
      d.bySlot.Mirrors Quad.slot d.primary ∧ d.ListsOwners := by
  rw [isSound_iff_files, ← Multimap.files_iff_mirrors, ← Multimap.files_iff_mirrors,
    ← Multimap.files_iff_mirrors, listsOwners_iff]
  refine and_congr_right fun howner => and_congr_right' (and_congr_right' ?_)
  rw [forall_checkReferrers_iff howner]
  rfl

open Sample in
/-- The owner of a quad with a literal may be listed for the literal.  Listed for an object
that it does not refer to, it is found. -/
example :
    let name := Literal.plain "Ada"
    let d := ((new false).add (fact (.iri person) knows (.literal name))).2
    { d with byObject := d.byObject.insert (.literal name) (.iri person) }.isSound = true ∧
      { d with byObject := d.byObject.insert (.iri friend) (.iri person) }.isSound = false := by
  decide

end Dataset

end QuadSession

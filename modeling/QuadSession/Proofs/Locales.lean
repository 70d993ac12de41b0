import QuadSession.Proofs.Cascade
import QuadSession.Proofs.Mutations
import QuadSession.Proofs.Sample

/-!
# Locales and the literals that they select

A locale selects literals by their language tags, and a replacement of values under a
locale removes only what the locale selects.  This file proves that two locales select
either the same literals or none in common, and that a replacement under one of them
leaves the literals of the other one alone.

## Strategy

Locales and literals are matched by a key, which is a text in small letters or nothing: of
a locale the primary subtag, of a literal the whole language tag (`Locale.selects_iff`).
Locales with one key select the same literals.  A literal has only one key, and for every
key there is a literal, so locales with different keys have no literal in common.

What a replacement under a locale removes are literals.  No blank node loses a reference
then, no cascade follows, and the quads that were selected are all that is lost
(`Session.contains_replaced_of_not_selects`).

## Main definitions

* `Locale.SameLanguage`: both locales are invariant, or their primary subtags agree.

## Main statements

* `Locale.selects_alike_iff` and `Locale.selects_alike_or_apart`: which literals two locales
  have in common.
* `Session.replace_keeps_other_languages`: this, and what a replacement leaves alone.
-/

namespace QuadSession

/-! ## What a locale selects -/

namespace Locale

variable {l m : Locale} {t : Term}

/-- Both locales are invariant, or neither is and their primary subtags agree up to the case
of ASCII letters.  The invariant locale has no primary subtag, not even an empty one. -/
def SameLanguage (l m : Locale) : Prop :=
  l.isInvariant = true ∧ m.isInvariant = true ∨
    l.isInvariant = false ∧ m.isInvariant = false ∧
      foldCase (primary l.text) = foldCase (primary m.text)

instance (l m : Locale) : Decidable (l.SameLanguage m) :=
  inferInstanceAs (Decidable (_ ∨ _))

/-- The primary subtag in small letters. -/
def key (l : Locale) : Option String :=
  l.language.map foldCase

theorem sameLanguage_iff : l.SameLanguage m ↔ l.key = m.key := by
  unfold SameLanguage key language tag
  cases l.isInvariant <;> cases m.isInvariant <;> simp

theorem selectsLanguage_iff {tag : Option String} :
    l.selectsLanguage tag = true ↔ l.key = tag.map foldCase := by
  unfold selectsLanguage key
  cases l.language <;> cases tag <;> simp

/-- The locale selects the literals whose whole language tag is its primary subtag. -/
theorem selects_iff : l.selects t = true ↔
    ∃ value, t = .literal value ∧ l.key = value.language.map foldCase := by
  cases t <;> simp [selects, Term.literal?, selectsLanguage_iff]

theorem isLiteral_of_selects (h : l.selects t = true) : t.isLiteral = true := by
  obtain ⟨value, rfl, -⟩ := selects_iff.mp h
  rfl

theorem key_eq_of_selects (hl : l.selects t = true) (hm : m.selects t = true) :
    l.key = m.key := by
  obtain ⟨value, rfl, hvalue⟩ := selects_iff.mp hl
  obtain ⟨other, hother, hkey⟩ := selects_iff.mp hm
  cases hother
  exact hvalue.trans hkey.symm

/-- Every locale selects a literal, be it one with an empty tag. -/
theorem exists_selects (l : Locale) : ∃ t, l.selects t = true := by
  cases h : l.language with
  | none =>
      refine ⟨.literal (.plain ""), selects_iff.mpr ⟨_, rfl, ?_⟩⟩
      rw [key, h]
      rfl
  | some subtag =>
      refine ⟨.literal (.tagged "" subtag), selects_iff.mpr ⟨_, rfl, ?_⟩⟩
      rw [key, h]
      rfl

theorem selects_alike_iff : (∀ t, l.selects t = m.selects t) ↔ l.SameLanguage m := by
  rw [sameLanguage_iff]
  constructor
  · intro halike
    obtain ⟨t, ht⟩ := l.exists_selects
    exact key_eq_of_selects ht (halike t ▸ ht)
  · intro hkey t
    rw [Bool.eq_iff_iff, selects_iff, selects_iff, hkey]

theorem not_selects_both (h : ¬ l.SameLanguage m) (t : Term) :
    ¬ (l.selects t = true ∧ m.selects t = true) :=
  fun ⟨hl, hm⟩ => h (sameLanguage_iff.mpr (key_eq_of_selects hl hm))

theorem selects_alike_or_apart (l m : Locale) :
    (∀ t, l.selects t = m.selects t) ∨ ∀ t, ¬ (l.selects t = true ∧ m.selects t = true) := by
  by_cases h : l.SameLanguage m
  · exact .inl (selects_alike_iff.mpr h)
  · exact .inr (not_selects_both h)

/-- An empty primary subtag is not the invariant locale. -/
example : ¬ SameLanguage invariant ⟨"-x"⟩ := by decide

end Locale

/-! ## Replacing values under a locale -/

namespace Session

variable {s : Session} {e : Entity} {values : List Node} {graph : Option Node} {l : Locale}
  {q : Quad}

/-- What is selected under a locale are values of the locale. -/
theorem selects_of_contains_selected {predicate : Term} {requested : Option Term}
    (hq : (s.selected e predicate requested (some l)).contains q = true) :
    l.selects q.object.term = true := by
  obtain ⟨x, hx, hqx⟩ := List.contains_iff_exists_mem_beq.mp hq
  rw [selected, List.mem_filter, Bool.and_eq_true] at hx
  rw [Quad.object_eq_of_beq hqx]
  exact hx.2.2

/-- No blank node has to be visited when literals were removed. -/
theorem orphans_cleared_eq_nil {p : Predicate} :
    Visit.orphans (s.cleared e p graph (some l)).1 = [] := by
  refine List.eq_nil_iff_forall_not_mem.mpr fun v hv => ?_
  obtain ⟨-, q, hq, hobject⟩ := Visit.mem_orphans.mp hv
  have hremoved := Quads.contains_of_mem hq
  rw [contains_cleared_fst, Bool.and_eq_true] at hremoved
  have hliteral := Locale.isLiteral_of_selects (selects_of_contains_selected hremoved.1)
  rw [hobject] at hliteral
  exact Bool.false_ne_true hliteral

theorem contains_replaced_of_not_selects {p : Predicate}
    (hq : s.contents.quads.contains q = true) (hnot : ¬ l.selects q.object.term = true) :
    (s.replaced e p values graph (some l)).contents.quads.contains q = true := by
  have hkept : (s.selected e p.term (graph.map Node.term) (some l)).contains q = false :=
    Bool.eq_false_iff.mpr fun hselected => hnot (selects_of_contains_selected hselected)
  rw [replaced_eq_replacedAlone orphans_cleared_eq_nil]
  show (s.restated e p values graph (some l)).2.quads.contains q = true
  rw [contains_restated, contains_cleared, hq, hkept]
  exact Bool.or_true _

/-- Two locales select either the same nodes or no node in common, and they select the same
exactly if both are invariant or their primary subtags agree up to the case of ASCII
letters.  A replacement of values under the one keeps every quad whose object is selected
by the other one, if they do not agree, and every quad whose object is not a literal. -/
theorem replace_keeps_other_languages (l m : Locale) :
    ((∀ n : Node, l.selects n.term = m.selects n.term) ∨
        ∀ n : Node, ¬ (l.selects n.term = true ∧ m.selects n.term = true)) ∧
      ((∀ n : Node, l.selects n.term = m.selects n.term) ↔ l.SameLanguage m) ∧
      ∀ (s : Session) (e : Entity) (predicate : Node) (values : List Node)
        (graph : Option Node), ∀ q ∈ s.contents.quads.members,
        ¬ l.SameLanguage m ∧ m.selects q.object.term = true ∨ q.object.isLiteral = false →
          q ∈ (s.step (.replace e predicate values graph (some l))).contents.quads.members := by
  have hterms : (∀ n : Node, l.selects n.term = m.selects n.term) ↔
      ∀ t, l.selects t = m.selects t := ⟨fun h t => h (.ofTerm t), fun h n => h n.term⟩
  rw [hterms]
  refine ⟨?_, Locale.selects_alike_iff, ?_⟩
  · exact (Locale.selects_alike_or_apart l m).imp_right fun h n => h n.term
  · intro s e predicate values graph q hq hother
    have hnot : ¬ l.selects q.object.term = true := by
      intro hselects
      rcases hother with ⟨hapart, hselects'⟩ | hobject
      · exact Locale.not_selects_both hapart q.object.term ⟨hselects, hselects'⟩
      · exact Bool.false_ne_true (hobject.symm.trans (Locale.isLiteral_of_selects hselects))
    cases hperform : s.perform (.replace e predicate values graph (some l)) with
    | error refusal => rwa [step_eq_of_refused hperform]
    | ok t =>
        obtain ⟨-, p, -, rfl⟩ := replace_eq_ok.mp hperform
        rw [step_eq_of_perform hperform]
        exact contains_replaced_of_not_selects hq hnot

open Sample in
/-- A person has a title in English and one in German, and the English one is replaced. -/
theorem replace_keeps_other_languages_person :
    let title : Iri := ⟨"http://example.com/title"⟩
    let german := fact (.iri person) title (.literal (.tagged "Frau" "DE"))
    let s := (start {}).run [.load (.iri person)
      [fact (.iri person) title (.literal (.tagged "Mrs" "en")), german]]
    let l : Locale := ⟨"en-GB"⟩
    let m : Locale := ⟨"de_AT"⟩
    german ∈ s.contents.quads.members ∧ ¬ l.SameLanguage m ∧
      m.selects german.object.term = true ∧
      german ∈ (s.step (.replace (.iri person) (.ofTerm (.iri title))
        [.ofTerm (.literal (.tagged "Ms" "en"))] none (some l))).contents.quads.members := by
  intro title german s l m
  have hthere : german ∈ s.contents.quads.members := by
    show s.contents.quads.contains german = true
    decide
  have hapart : ¬ l.SameLanguage m := by decide
  have hselects : m.selects german.object.term = true := by decide
  exact ⟨hthere, hapart, hselects, (replace_keeps_other_languages l m).2.2 s _ _ _ _ german hthere
    (.inl ⟨hapart, hselects⟩)⟩

end Session

end QuadSession

import QuadSession.Proofs.Copies
import QuadSession.Proofs.Edits
import QuadSession.Proofs.Replacing

/-!
# Replacing values twice

A replacement that is carried out a second time takes the quads of the new values away
and puts them back, and it visits the blank nodes to which they refer.  This file proves
that nothing of this shows afterwards if the entity has an IRI.

## Strategy

The first replacement leaves the values of the entity up to date (`Session.UpToDate`):
each new value is stated, and the only quads that answer are the copies that a further
replacement would take in.  Three things follow for the next replacement.

* It puts back what it has removed, copy for copy.
* By the time of the visits every removed quad is there again.  So the blank nodes that
  are visited are all referred to, and none of them is due
  (`Contents.sweep_orphans_of_contains`).
* Nothing is lost and nothing is gained, so there is no graph to record.

A blank entity may go together with its new values in the first replacement.  Then they
are not up to date, and the second replacement states them anew.

## Main definitions

* `Session.collected`: what a replacement removes besides the old values.
* `Session.UpToDate`: the values of an entity are those of a replacement.

## Main statements

* `Session.upToDate_replaced`: they are so after the replacement.
* `Session.UpToDate.replaced`: then a replacement changes nothing.
* `Session.replace_again`: replacing twice is replacing once.
-/

namespace QuadSession

/-! ## Visits that remove nothing -/

namespace Contents

variable {c : Contents}

/-- A sweep none of whose visits is due removes nothing. -/
theorem sweep_of_idle {visits : List Visit} (hidle : ∀ v ∈ visits, ¬ c.isDue v = true) :
    c.sweep visits = ([], c) := by
  induction visits with
  | nil => rw [Contents.sweep]
  | cons v rest ih =>
      obtain ⟨hv, hrest⟩ := List.forall_mem_cons.mp hidle
      rw [Contents.sweep, if_neg hv]
      exact ih hrest

/-- Visits to the objects of quads that are there remove nothing. -/
theorem sweep_orphans_of_contains (h : c.Consistent) {quads : List Quad}
    (hthere : ∀ q ∈ quads, c.quads.contains q = true) :
    c.sweep (Visit.orphans quads) = ([], c) := by
  refine sweep_of_idle fun v hv hdue => ?_
  obtain ⟨hforced, q, hq, hobject⟩ := Visit.mem_orphans.mp hv
  have hstray : c.Stray v.blank := (h.isDue_iff hforced).mp hdue
  exact hstray.unreferenced q (hthere q hq) hobject

/-- The quads that a sweep leaves are the copies that were there. -/
theorem mem_quads_of_mem_sweep {visits : List Visit} {q : Quad}
    (hq : q ∈ (c.sweep visits).2.quads.quads) : q ∈ c.quads.quads := by
  fun_induction Contents.sweep c visits with
  | case1 c => exact hq
  | case2 c v rest hdue e removed more final hsweep ih =>
      rw [hsweep] at ih
      have hdetached : q ∈ (c.detach e).2.quads.quads := ih hq
      rw [quads_detach, Dataset.mem_quads_removeAll, Dataset.mem_quads_removeAll] at hdetached
      exact hdetached.1.1
  | case3 c v rest hidle ih => exact ih hq

end Contents

namespace Session

variable {s : Session} {options : Options} {commands : List Command} {e : Entity}
  {p : Predicate} {values : List Node} {graph : Option Node} {locale : Option Locale}

/-- What a replacement of values removes because nothing refers to it any more. -/
def collected (s : Session) (e : Entity) (predicate : Predicate) (values : List Node)
    (graph : Option Node) (locale : Option Locale) : List Removal :=
  ((s.restated e predicate values graph locale).2.sweep
    (Visit.orphans (s.cleared e predicate graph locale).1)).1

/-- Before the visits there are the copies of the quads that were not selected, and the
first copies of the new values that are not among them. -/
theorem mem_quads_restated {q : Quad} :
    q ∈ (s.restated e p values graph locale).2.quads.quads ↔
      q ∈ s.quads ∧ (s.selected e p.term (graph.map Node.term) locale).contains q = false ∨
      (quadsOfValues e p graph values).find? (· == q) = some q ∧
        (s.cleared e p graph locale).2.quads.contains q = false :=
  (Dataset.mem_quads_addAll _).trans
    (or_congr (Dataset.mem_quads_removeAll _) Dataset.mem_addAll_fst)

/-! ## Values that are up to date -/

/-- The values of the entity are those that a replacement would give it: they are all
stated, and a quad that answers is the first copy that states its value. -/
structure UpToDate (s : Session) (e : Entity) (predicate : Predicate) (values : List Node)
    (graph : Option Node) (locale : Option Locale) : Prop where
  stated : ∀ q, (quadsOfValues e predicate graph values).contains q = true →
    s.contents.quads.contains q = true
  first : ∀ q ∈ s.quads, q.AnswersFor e predicate.term (graph.map Node.term) locale →
    (quadsOfValues e predicate graph values).find? (· == q) = some q

/-- After a replacement for an entity with an IRI its values are up to date. -/
theorem upToDate_replaced (h : s.contents.Consistent) (he : e.isBlank = false) (p : Predicate)
    (values : List Node) (graph : Option Node) (locale : Option Locale) :
    (s.replaced e p values graph locale).UpToDate e p values graph locale where
  stated q hq := contains_after_of_stated h he hq
  first q hq hanswers := by
    have hbefore : q ∈ (s.restated e p values graph locale).2.quads.quads :=
      Contents.mem_quads_of_mem_sweep hq
    rcases mem_quads_restated.mp hbefore with ⟨hold, hkept⟩ | ⟨hfirst, -⟩
    · -- the quads that answered were all taken away
      have hselected := (contains_selected h.indexed).mpr
        ⟨Dataset.contains_of_mem_quads hold, hanswers⟩
      exact absurd hselected (Bool.eq_false_iff.mp hkept)
    · exact hfirst

namespace UpToDate

section

variable (hs : s.UpToDate e p values graph locale) (h : s.contents.Consistent)

include hs h

/-- What is removed is put back, copy for copy. -/
theorem quads_restated : (s.restated e p values graph locale).2.quads.quads = s.quads := by
  refine (Dataset.quads_eq_of_subset (fun q hq => ?_) fun q hq => ?_).symm
  · cases hselected : (s.selected e p.term (graph.map Node.term) locale).contains q with
    | true =>
        have hanswers := ((contains_selected h.indexed).mp hselected).2
        have hgone : (s.cleared e p graph locale).2.quads.contains q = false := by
          rw [contains_cleared, hselected, Bool.not_true, Bool.and_false]
        exact mem_quads_restated.mpr (.inr ⟨hs.first q hq hanswers, hgone⟩)
    | false => exact mem_quads_restated.mpr (.inl ⟨hq, hselected⟩)
  · rcases mem_quads_restated.mp hq with ⟨hold, -⟩ | ⟨hfirst, -⟩
    · exact Dataset.contains_of_mem_quads hold
    · exact hs.stated q (Quads.contains_of_mem (List.mem_of_find?_eq_some hfirst))

/-- So the visits of the replacement remove nothing. -/
theorem sweep_restated :
    (s.restated e p values graph locale).2.sweep
        (Visit.orphans (s.cleared e p graph locale).1) =
      ([], (s.restated e p values graph locale).2) := by
  refine Contents.sweep_orphans_of_contains (consistent_restated h) fun q hq => ?_
  have hremoved := Quads.contains_of_mem hq
  rw [contains_cleared_fst, Bool.and_eq_true] at hremoved
  rw [← Dataset.contains_quads, hs.quads_restated h]
  exact Dataset.contains_quads.trans hremoved.2

/-- A replacement by values that are up to date collects nothing, and it alters neither
the quads nor the loaded entities nor the log. -/
theorem replaced :
    s.collected e p values graph locale = [] ∧
      (s.replaced e p values graph locale).quads = s.quads ∧
      (∀ x, (s.replaced e p values graph locale).isLoaded x = s.isLoaded x) ∧
      (s.replaced e p values graph locale).log = s.log := by
  let m := s.replacement e p values graph locale
  have hm : m.Accounts s.contents.quads := accounts_replacement h e p values graph locale
  have hsweep := hs.sweep_restated h
  have hafter : m.after = (s.restated e p values graph locale).2 := congrArg Prod.snd hsweep
  have hquads : m.after.quads.quads = s.quads := by
    rw [hafter, hs.quads_restated h]
  have hgained : ∀ q, ¬ m.gained.contains q = true := by
    intro q hq
    obtain ⟨hstated, hnew⟩ := contains_gained_replacement.mp hq
    exact hnew (hs.stated q hstated)
  have hlost : ∀ q, ¬ m.lost.contains q = true := by
    intro q hq
    obtain ⟨hthere, hgone⟩ := (hm.lost_iff q).mp hq
    rw [← Dataset.contains_quads, hquads] at hgone
    exact hgone (Dataset.contains_quads.trans (hthere.resolve_right (hgained q)))
  refine ⟨congrArg Prod.fst hsweep, hquads, fun x => ?_, ?_⟩
  · show m.after.loaded.contains x = s.contents.loaded.contains x
    rw [hafter]
    rfl
  · rw [replaced_eq, editsOf_eq_nil hlost hgained]
    exact ite_self s.log

end

end UpToDate

/-! ## The second of two replacements -/

/-- In a live session, replacing the values of an entity with an IRI for a predicate that
is not a literal succeeds, and so does doing the same again.  The second time leaves the
quads, the counts of references, the loaded entities and the log as they are, and
collects nothing. -/
theorem replace_again (hs : (start options).run commands = s) (hlive : s.closed = false)
    (he : e.isBlank = false) {predicate : Node} (hpredicate : predicate.term.isLiteral = false)
    (values : List Node) (graph : Option Node) (locale : Option Locale) :
    ∃ t u, s.perform (.replace e predicate values graph locale) = .ok t ∧
      t.perform (.replace e predicate values graph locale) = .ok u ∧
      u.quads = t.quads ∧ (∀ term, u.referenceCount term = t.referenceCount term) ∧
      (∀ x, u.isLoaded x = t.isLoaded x) ∧ u.log = t.log ∧
      t.collected e ⟨predicate, hpredicate⟩ values graph locale = [] := by
  let p : Predicate := ⟨predicate, hpredicate⟩
  let t := s.replaced e p values graph locale
  let u := t.replaced e p values graph locale
  have h : s.Consistent := hs ▸ consistent_run options commands
  have ht : t.Consistent := h.replaced e p values graph locale
  have hu : u.Consistent := ht.replaced e p values graph locale
  have hdate : t.UpToDate e p values graph locale :=
    upToDate_replaced h.contents he p values graph locale
  obtain ⟨hcollected, hquads, hloaded, hlog⟩ := hdate.replaced ht.contents
  have hcount : ∀ b, u.contents.tally.count b = t.contents.tally.count b := by
    intro b
    rw [hu.contents.count_eq, ht.contents.count_eq]
    exact congrArg (referencesTo b) hquads
  refine ⟨t, u, replace_eq_ok.mpr ⟨hlive, p, rfl, rfl⟩, replace_eq_ok.mpr ⟨hlive, p, rfl, rfl⟩,
    hquads, fun term => ?_, hloaded, hlog, hcollected⟩
  unfold referenceCount
  split
  · rw [hcount]
  · rfl

open Sample in
/-- A person who lives at an address gets the address once more and a street twice. -/
theorem replace_again_person :
    let s := (start {}).run [.load (.iri person) [fact (.iri person) livesAt (.blank address),
      fact (.blank address) knows (.iri person)]]
    let predicate := Node.ofTerm (.iri livesAt)
    let values := [Node.ofTerm (.blank street), .ofTerm (.blank address), .ofTerm (.blank street)]
    s.closed = false ∧ (Entity.iri person).isBlank = false ∧
      ∃ hpredicate : predicate.term.isLiteral = false,
        ∃ t u, s.perform (.replace (.iri person) predicate values none none) = .ok t ∧
          t.perform (.replace (.iri person) predicate values none none) = .ok u ∧
          u.quads = t.quads ∧ (∀ term, u.referenceCount term = t.referenceCount term) ∧
          (∀ x, u.isLoaded x = t.isLoaded x) ∧ u.log = t.log ∧
          t.collected (.iri person) ⟨predicate, hpredicate⟩ values none none = [] := by
  intro s predicate values
  have hlive : s.closed = false := by decide
  have hpredicate : predicate.term.isLiteral = false := by decide
  exact ⟨hlive, rfl, hpredicate, replace_again rfl hlive rfl hpredicate values none none⟩

end Session

end QuadSession

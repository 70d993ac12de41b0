import QuadSession.Proofs.Baseline

/-!
# What a replacement of values leaves

To replace the values of an entity for a predicate, a session selects the quads with
the old values and removes them, adds a quad for each new value, and then visits the
objects of the removed quads.  This file says which quads are left at the end, without
an order in which things are done.

## Strategy

A value may be removed and put back, so the visits also go to blank nodes to which
quads still refer.  The cascade works on the quads `S` with the new values, and it visits
the objects of the selected quads `A`.  It is the same to let it start from `S ∪ A`, where
the quads of `A` that were not put back are gone already (`leavesNoOrphan_union_iff`): a
reference of `A` that was put back is in `S`, so it only counts once it is taken, and then
it is among the quads that are gone anyway.  So the theorem about cascades that have to
remove a given set applies.

## Main definitions

* `Quad.AnswersFor`: the condition on the quads that a replacement selects.
* `Stating`: the quads that state a value.
* `LeavesNoOrphanOf`: orphans are sought among the objects of given quads too.

## Main statements

* `Contents.isLeast_sweep_orphans`: what visits to the objects of given quads remove.
* `Session.replaceValues_isLeast`: what a replacement leaves.
-/

namespace QuadSession

variable {A S D : Set Quad} {q : Quad}

/-! ## The quads that are selected -/

/-- The quad lies in the requested graph.  If its subject is blank, its graph may also be
given by an IRI that the requested IRI ends with. -/
def Quad.LiesIn (q : Quad) (requested : Term) : Prop :=
  q.graphTerm = some requested ∨
    q.owner.isBlank = true ∧ ∃ inner outer : Iri, q.graphTerm = some (.iri inner) ∧
      requested = .iri outer ∧ inner.text.toList <:+ outer.text.toList

/-- The entity owns the quad, and the quad answers for the predicate, in the graph if one
is named and in the locale if one is given. -/
structure Quad.AnswersFor (q : Quad) (e : Entity) (predicate : Term) (graph : Option Term)
    (locale : Option Locale) : Prop where
  owner_eq : q.owner = e
  predicate_eq : q.predicate.term = predicate
  liesIn : ∀ requested, graph = some requested → q.LiesIn requested
  selects : ∀ l, locale = some l → l.selects q.object.term = true

/-- The quads by which the entity has the values for the predicate in the graph. -/
def Stating (e : Entity) (predicate : Term) (graph : Option Term) (values : List Node) :
    Set Quad :=
  {q | ∃ value ∈ values, q.statement = ⟨e.toTerm, predicate, value.term, graph⟩}

namespace Session

theorem liesIn_iff {requested : Term} : liesIn requested q = true ↔ q.LiesIn requested := by
  unfold liesIn Quad.LiesIn
  cases hgraph : q.graphTerm with
  | none => simp
  | some graph => cases graph <;> cases requested <;> simp [Term.iri?]

theorem liesIn_congr {requested : Term} {a b : Quad} (h : (a == b) = true) :
    liesIn requested a = liesIn requested b := by
  unfold liesIn
  rw [Quad.graphTerm_eq_of_beq h, Quad.owner_eq_of_statement_eq (Quad.beq_iff.mp h)]

theorem contains_quadsFor {s : Session} (h : s.contents.quads.Indexed) {e : Entity}
    {predicate : Term} {graph : Option Term} :
    (s.quadsFor e predicate graph).contains q = true ↔
      q ∈ s.contents.quads.members ∧ q.owner = e ∧ q.predicate.term = predicate ∧
        ∀ requested, graph = some requested → q.LiesIn requested := by
  have hslot : (q.slot == ⟨e.toTerm, .ofTerm predicate⟩) = true ↔
      q.owner = e ∧ q.predicate.term = predicate := by
    rw [Slot.beq_iff]
    exact and_congr_left' Entity.toTerm_inj
  unfold quadsFor
  cases graph with
  | none =>
      rw [Quads.contains_filter_list (fun _ _ _ => rfl), Bool.and_true, h.contains_atSlot, hslot]
      simp only [reduceCtorEq, false_implies, implies_true, and_true]
      rfl
  | some requested =>
      rw [Quads.contains_filter_list fun _ _ => liesIn_congr, Bool.and_eq_true,
        h.contains_atSlot, hslot, liesIn_iff, and_assoc, and_assoc]
      simp only [Option.some.injEq, forall_eq']
      rfl

/-- What is selected are the quads that answer. -/
theorem contains_selected {s : Session} (h : s.contents.quads.Indexed) {e : Entity}
    {predicate : Term} {graph : Option Term} {locale : Option Locale} :
    (s.selected e predicate graph locale).contains q = true ↔
      q ∈ s.contents.quads.members ∧ q.AnswersFor e predicate graph locale := by
  unfold selected
  rw [Quads.contains_filter_list, Bool.and_eq_true, Bool.and_eq_true, contains_quadsFor h,
    beq_iff_eq]
  · constructor
    · rintro ⟨⟨hq, howner, hpredicate, hgraph⟩, -, hlocale⟩
      refine ⟨hq, howner, hpredicate, hgraph, fun l hl => ?_⟩
      rw [hl] at hlocale
      exact hlocale
    · rintro ⟨hq, howner, hpredicate, hgraph, hlocale⟩
      refine ⟨⟨hq, howner, hpredicate, hgraph⟩, howner, ?_⟩
      cases locale with
      | none => rfl
      | some l => exact hlocale l rfl
  · intro a b hab
    rw [Quad.object_eq_of_beq hab, Quad.owner_eq_of_statement_eq (Quad.beq_iff.mp hab)]

theorem listedIn_quadsOfValues (e : Entity) (predicate : Predicate) (graph : Option Node)
    (values : List Node) :
    listedIn (quadsOfValues e predicate graph values) =
      Stating e predicate.term (graph.map Node.term) values := by
  ext q
  show (quadsOfValues e predicate graph values).contains q = true ↔ _
  rw [List.contains_iff_exists_mem_beq]
  unfold quadsOfValues
  simp only [List.mem_map]
  constructor
  · rintro ⟨_, ⟨value, hvalue, rfl⟩, hq⟩
    exact ⟨value, hvalue, Quad.beq_iff.mp hq⟩
  · rintro ⟨value, hvalue, hq⟩
    exact ⟨_, ⟨value, hvalue, rfl⟩, Quad.beq_iff.mpr hq⟩

end Session

/-! ## Orphans among the objects of given quads -/

/-- Taking `D` out of `S` leaves no orphan among the objects of `A` and `D`: a blank node
to which a quad of `A` or `D` refers and no quad of `S` outside of `D` owns nothing
outside of `D`. -/
def LeavesNoOrphanOf (A S D : Set Quad) : Prop :=
  ∀ b : Blank, (∃ r ∈ A ∪ D, r.object.term = .blank b) →
    (∀ r ∈ S, r.object.term = .blank b → r ∈ D) →
    ∀ q ∈ S, q.owner = .blank b → q ∈ D

/-- It does not matter whether the quads of `A` are only looked at, or are there at the
start and those of them that are not in `S` have to go. -/
theorem leavesNoOrphan_union_iff :
    LeavesNoOrphan (S ∪ A) ((A \ S) ∪ D) ↔ LeavesNoOrphanOf A S D := by
  have hin : ∀ q ∈ S, q ∈ (A \ S) ∪ D ↔ q ∈ D := fun q hq =>
    or_iff_right fun hgone => hgone.2 hq
  have hout : ∀ q ∈ A, q ∉ S → q ∈ (A \ S) ∪ D := fun q hq hnot => .inl ⟨hq, hnot⟩
  constructor
  · rintro hno b ⟨r, hr, hobject⟩ hrefs q hq howner
    -- a reference of `A` that is still in `S` is in `D` like all others
    have hgone : r ∈ (A \ S) ∪ D := by
      by_cases hthere : r ∈ S
      · exact .inr (hrefs r hthere hobject)
      · exact hr.imp (fun hA => ⟨hA, hthere⟩) id
    have hall : ∀ r' ∈ S ∪ A, r'.object.term = .blank b → r' ∈ (A \ S) ∪ D := by
      rintro r' hr' hobject'
      by_cases hthere : r' ∈ S
      · exact .inr (hrefs r' hthere hobject')
      · exact hout r' (hr'.resolve_left hthere) hthere
    exact (hin q hq).mp (hno b ⟨r, hgone, hobject⟩ hall q (.inl hq) howner)
  · rintro hno b ⟨r, hr, hobject⟩ hrefs q hq howner
    by_cases hthere : q ∈ S
    · refine .inr (hno b ⟨r, hr.imp And.left id, hobject⟩ (fun r' hr' hobject' => ?_) q hthere
        howner)
      exact (hin r' hr').mp (hrefs r' (.inl hr') hobject')
    · exact hout q (hq.resolve_left hthere) hthere

namespace Contents

variable {c : Contents}

/-- Before visits to the objects of given quads, those of the quads that are not there
are gone already. -/
theorem cascading_orphans (h : c.Consistent) (quads : List Quad) :
    c.Cascading (c.quads.members ∪ listedIn quads) (listedIn quads \ c.quads.members)
      (Visit.orphans quads) where
  consistent := h
  kept := Set.subset_union_left
  gone D hB _ q hq := hB ⟨hq.1.resolve_left hq.2, hq.2⟩
  unforced := unforced_orphans quads
  referred v hv := by
    obtain ⟨-, q, hq, hobject⟩ := Visit.mem_orphans.mp hv
    have hlisted : q ∈ listedIn quads :=
      Quads.contains_of_mem hq
    exact ⟨q, .inr hlisted, hobject⟩
  awaited b hgone hnone hown := by
    obtain ⟨r, ⟨hr, hnot⟩, hobject⟩ := hgone
    obtain ⟨x, hx, hblank⟩ := exists_mem_of_object (hr.resolve_left hnot) hobject
    exact ⟨⟨b, false⟩, Visit.mem_orphans.mpr ⟨rfl, x, hx, Term.blank?_eq_some.mp hblank⟩, rfl⟩

/-- Visits to the objects of given quads remove the least set that leaves no orphan among
the objects of these quads and its own. -/
theorem isLeast_sweep_orphans (h : c.Consistent) (quads : List Quad) :
    IsLeast {D | D ⊆ c.quads.members ∧ LeavesNoOrphanOf (listedIn quads) c.quads.members D}
      (c.quads.members \ (c.sweep (Visit.orphans quads)).2.quads.members) := by
  let A := listedIn quads
  let S := c.quads.members
  let left := (c.sweep (Visit.orphans quads)).2.quads.members
  have hkept : left ⊆ S := members_sweep_subset h _
  have hleast := (cascading_orphans h quads).isLeast_sweep fun q hq => ⟨.inr hq.1, hq.2⟩
  -- what the cascade from `S ∪ A` removes, and what the sweep removes of it
  have hgone : (S ∪ A) \ left = (A \ S) ∪ (S \ left) := by
    ext q
    by_cases hq : q ∈ S
    · simp [hq]
    · have hnot : q ∉ left := fun hl => hq (hkept hl)
      simp [hq, hnot]
  obtain ⟨⟨-, -, hno⟩, hlower⟩ := hleast
  refine ⟨⟨Set.sdiff_subset, ?_⟩, ?_⟩
  · exact leavesNoOrphan_union_iff.mp (hgone ▸ hno)
  · rintro D ⟨hD, hclosed⟩ q hq
    have hmember : (A \ S) ∪ D ∈
        {D | A \ S ⊆ D ∧ D ⊆ S ∪ A ∧ LeavesNoOrphan (S ∪ A) D} := by
      refine ⟨Set.subset_union_left, ?_, leavesNoOrphan_union_iff.mpr hclosed⟩
      rintro x (hx | hx)
      · exact .inr hx.1
      · exact .inl (hD hx)
    have hboth : q ∈ (A \ S) ∪ D := hlower hmember ⟨.inl hq.1, hq.2⟩
    exact hboth.resolve_left fun hnot => hnot.2 hq.1

end Contents

/-! ## Replacing values -/

namespace Session

variable {s : Session} {e : Entity} {predicate : Predicate} {graph : Option Node}
  {locale : Option Locale}

/-- The quads that are removed are those that answer. -/
theorem listedIn_removed (h : s.contents.Consistent) :
    listedIn (s.cleared e predicate graph locale).1 =
      {q ∈ s.contents.quads.members |
        q.AnswersFor e predicate.term (graph.map Node.term) locale} := by
  ext q
  show (s.cleared e predicate graph locale).1.contains q = true ↔ _
  rw [contains_cleared_fst, Bool.and_eq_true, contains_selected h.indexed]
  exact and_iff_left_of_imp And.left

/-- The quads before the visits: those that do not answer, and those of the new
values. -/
theorem members_restated (h : s.contents.Consistent) (values : List Node) :
    (s.restated e predicate values graph locale).2.quads.members =
      (s.contents.quads.members \ {q ∈ s.contents.quads.members |
        q.AnswersFor e predicate.term (graph.map Node.term) locale}) ∪
        Stating e predicate.term (graph.map Node.term) values := by
  rw [← listedIn_quadsOfValues]
  refine (Dataset.members_addAll _ _).trans (congrArg (· ∪ _) ?_)
  ext q
  show (s.cleared e predicate graph locale).2.quads.contains q = true ↔ _
  rw [contains_cleared, Bool.and_eq_true, Bool.not_eq_true', ← Bool.not_eq_true,
    contains_selected h.indexed]
  rfl

/-- Replacing values for a predicate that is not a literal succeeds in every live session
and computes the new values once.  Let `A` be the quads of the session that answer, and
let `S` be the others together with those of the new values.  What is left is `S` without
the least set that leaves no orphan among the objects of `A` and its own. -/
theorem replaceValues_isLeast {options : Options} {commands : List Command}
    (hs : (start options).run commands = s) (hlive : s.closed = false) (e : Entity)
    {predicate : Node} (hpredicate : predicate.term.isLiteral = false) (graph : Option Node)
    (locale : Option Locale) {m : Type → Type} [Monad m] [LawfulMonad m]
    (values : m (List Node)) :
    ∃ after : List Node → Session,
      s.replaceValues e predicate values graph locale =
        (fun news => .ok (after news)) <$> values ∧
      ∀ news : List Node,
        let A := {q ∈ s.contents.quads.members |
          q.AnswersFor e predicate.term (graph.map Node.term) locale}
        let S := (s.contents.quads.members \ A) ∪
          Stating e predicate.term (graph.map Node.term) news
        ∃ D, IsLeast {D | D ⊆ S ∧ LeavesNoOrphanOf A S D} D ∧
          (after news).contents.quads.members = S \ D := by
  have h : s.contents.Consistent := hs ▸ (consistent_run options commands).contents
  let p : Predicate := ⟨predicate, hpredicate⟩
  have hadmitted : s.admitReplace predicate = .ok p := admitReplace_eq_ok.mpr ⟨hlive, rfl⟩
  refine ⟨fun news => s.replaced e p news graph locale, ?_, fun news => ?_⟩
  · rw [replaceValues, hadmitted, map_eq_pure_bind]
  · intro A S
    let selected := s.selected e p.term (graph.map Node.term) locale
    let removed := (s.contents.remove selected).1
    let middle := ((s.contents.remove selected).2.add (quadsOfValues e p graph news)).2
    have hmiddle : middle.Consistent := (h.remove selected).add _
    have hremoved : listedIn removed = A := listedIn_removed h
    have hmembers : middle.quads.members = S := members_restated h news
    have hleast := Contents.isLeast_sweep_orphans hmiddle removed
    have hkept := Contents.members_sweep_subset hmiddle (Visit.orphans removed)
    rw [hremoved, hmembers] at hleast
    rw [hmembers] at hkept
    exact ⟨_, hleast, (Set.sdiff_sdiff_cancel_left hkept).symm⟩

open Sample in
/-- A person lives at an address and moves to the street of the address, which nothing
refers to once the address is gone but the new quad.  It is counted how often the new
values are computed. -/
theorem replaceValues_isLeast_person :
    let s := (start {}).run [.load (.iri person) [fact (.iri person) livesAt (.blank address),
      fact (.blank address) livesAt (.blank street), fact (.blank street) knows (.iri person)]]
    let predicate := Node.ofTerm (.iri livesAt)
    let values : StateM Nat (List Node) := do
      modify (· + 1)
      return [.ofTerm (.blank street)]
    s.closed = false ∧ predicate.term.isLiteral = false ∧
      ((s.replaceValues (.iri person) predicate values none none).run 0).2 = 1 ∧
      ∃ after : List Node → Session,
        s.replaceValues (.iri person) predicate values none none =
          (fun news => .ok (after news)) <$> values ∧
        ∀ news : List Node,
          let A := {q ∈ s.contents.quads.members |
            q.AnswersFor (.iri person) predicate.term none none}
          let S := (s.contents.quads.members \ A) ∪
            Stating (.iri person) predicate.term none news
          ∃ D, IsLeast {D | D ⊆ S ∧ LeavesNoOrphanOf A S D} D ∧
            (after news).contents.quads.members = S \ D := by
  intro s predicate values
  have hlive : s.closed = false := by decide
  have hpredicate : predicate.term.isLiteral = false := rfl
  obtain ⟨after, hafter, hleft⟩ :=
    replaceValues_isLeast rfl hlive (.iri person) hpredicate none none values
  have honce : ((s.replaceValues (.iri person) predicate values none none).run 0).2 = 1 := by
    rw [hafter]
    rfl
  exact ⟨hlive, hpredicate, honce, after, hafter, hleft⟩

end Session

end QuadSession

import QuadSession.Proofs.Cascade

/-!
# What a mutation takes away and what it brings

Replacing values and deleting an entity both lead to new contents, and both are
recorded by the quads that were lost and the quads that were gained.  This file
says how these lists account for the difference between the contents before and
after.

A gained quad may be lost in the same step.  This happens if a blank entity
referred to itself by the replaced values alone, at once or through other blank
nodes: it is then orphaned and goes together with the values that were just added.  A cascade that is not forced
takes blank entities only, each with all its quads (`Contents.owner_of_swept`).  So
such a step leaves none of the gained quads behind, and it never happens to an
entity with an IRI.

## Main definitions

* `Mutation` is what a step records, with the contents to which it leads.
* `Session.replacement` and `Session.deletion` are the two kinds of mutations.
* `Session.cleared` and `Session.restated` are the stages of a replacement before its
  visits.
* `Mutation.Accounts` says that the record agrees with the contents.

## Main statements

* `Session.accounts_replacement` and `Session.accounts_deletion`.
* `Session.contains_after_of_stated`: an entity with an IRI keeps its new values.
-/

namespace QuadSession

/-! ## What a sweep takes -/

theorem Quad.involvesBlank_of_attachedTo {q : Quad} {b : Blank} (h : q.AttachedTo (.blank b)) :
    q.involvesBlank = true := by
  unfold involvesBlank
  rcases h with howner | ⟨-, hobject⟩
  · rw [howner]
    rfl
  · have hblank : q.object.isBlank = true := by
      rw [Node.isBlank, hobject]
      rfl
    rw [hblank, Bool.or_true]

/-- The orphans among quads are visited without force. -/
theorem Visit.mem_orphans {v : Visit} {quads : List Quad} :
    v ∈ Visit.orphans quads ↔ v.forced = false ∧ ∃ q ∈ quads, q.object.term = .blank v.blank := by
  unfold Visit.orphans
  rw [List.mem_filterMap]
  constructor
  · rintro ⟨q, hq, hvisit⟩
    obtain ⟨b, hb, rfl⟩ := Option.map_eq_some_iff.mp hvisit
    exact ⟨rfl, q, hq, Term.blank?_eq_some.mp hb⟩
  · rintro ⟨hforced, q, hq, hobject⟩
    refine ⟨q, hq, ?_⟩
    rw [hobject, ← hforced]
    rfl

namespace Contents

variable {c : Contents} {q : Quad}

/-- The removals of a sweep report exactly the quads that are gone after it. -/
theorem contains_sweep_fst (h : c.Consistent) (visits : List Visit) :
    ((c.sweep visits).1.flatMap Removal.quads).contains q = true ↔
      c.quads.contains q = true ∧ ¬ (c.sweep visits).2.quads.contains q = true := by
  fun_induction Contents.sweep c visits with
  | case1 c =>
      refine iff_of_false (Bool.eq_false_iff.mp rfl) fun hgone => ?_
      exact hgone.2 hgone.1
  | case2 c v rest hdue e removed more final hsweep =>
      rename_i ih
      have hkept := members_sweep_subset (h.detach e) (Visit.following e v.forced removed ++ rest)
      rw [hsweep] at ih hkept
      have hfirst : removed.contains q = true ↔ c.quads.contains q = true ∧ q.AttachedTo e :=
        contains_detach_fst h.indexed
      have hleft : (c.detach e).2.quads.contains q = true ↔
          c.quads.contains q = true ∧ ¬ q.AttachedTo e := contains_detach h.indexed
      have hfinal : final.quads.contains q = true → (c.detach e).2.quads.contains q = true :=
        fun hq => hkept hq
      rw [List.flatMap_cons, List.contains_append, Bool.or_eq_true, hfirst, ih (h.detach e)]
      grind
  | case3 c v rest hidle ih => exact ih h

/-- A sweep removes only quads with a blank node. -/
theorem involvesBlank_of_swept (h : c.Consistent) (visits : List Visit)
    (hq : c.quads.contains q = true)
    (hgone : ¬ (c.sweep visits).2.quads.contains q = true) : q.involvesBlank = true := by
  fun_induction Contents.sweep c visits with
  | case1 c => exact absurd hq hgone
  | case2 c v rest hdue e removed more final hsweep =>
      rename_i ih
      rw [hsweep] at ih
      by_cases hattached : q.AttachedTo e
      · exact Quad.involvesBlank_of_attachedTo hattached
      · exact ih (h.detach e) ((contains_detach h.indexed).mpr ⟨hq, hattached⟩) hgone
  | case3 c v rest hidle ih => exact ih h hq hgone

/-- A sweep that is not forced takes blank entities only, each with all its quads. -/
theorem owner_of_swept (h : c.Consistent) {visits : List Visit}
    (hunforced : ∀ v ∈ visits, v.forced = false) (hq : c.quads.contains q = true)
    (hgone : ¬ (c.sweep visits).2.quads.contains q = true) :
    q.owner.isBlank = true ∧
      ∀ x : Quad, (c.sweep visits).2.quads.contains x = true → x.owner ≠ q.owner := by
  fun_induction Contents.sweep c visits with
  | case1 c => exact absurd hq hgone
  | case2 c v rest hdue e removed more final hsweep =>
      rename_i ih
      have hforced := hunforced v List.mem_cons_self
      have hkept := members_sweep_subset (h.detach e) (Visit.following e v.forced removed ++ rest)
      rw [hsweep] at ih hkept
      by_cases hattached : q.AttachedTo e
      · -- nothing refers to the blank node of a visit that is not forced
        have hnone := ((h.isDue_iff hforced).mp hdue).unreferenced
        have howner : q.owner = e := hattached.resolve_right fun hobject => hnone q hq hobject.2
        refine ⟨by rw [howner]; rfl, fun x hx heq => ?_⟩
        have hfree := ((contains_detach h.indexed).mp (hkept hx)).2
        exact hfree (.inl (heq.trans howner))
      · refine ih (h.detach e) ?_ ((contains_detach h.indexed).mpr ⟨hq, hattached⟩) hgone
        intro w hw
        rcases List.mem_append.mp hw with hnew | hold
        · rw [hforced] at hnew
          exact (of_mem_following h hnew).1
        · exact hunforced w (List.mem_cons_of_mem v hold)
  | case3 c v rest hidle ih =>
      exact ih h (fun w hw => hunforced w (List.mem_cons_of_mem v hw)) hq hgone

theorem uproot_eq (c : Contents) (e : Entity) (forced : Bool) :
    c.uproot e forced =
      (⟨e, (c.detach e).1⟩ ::
          ((c.detach e).2.sweep (Visit.following e forced (c.detach e).1)).1,
        ((c.detach e).2.sweep (Visit.following e forced (c.detach e).1)).2) := rfl

theorem contains_uproot_fst (h : c.Consistent) (e : Entity) (forced : Bool) :
    ((c.uproot e forced).1.flatMap Removal.quads).contains q = true ↔
      c.quads.contains q = true ∧ ¬ (c.uproot e forced).2.quads.contains q = true := by
  rw [uproot_eq, List.flatMap_cons, List.contains_append, Bool.or_eq_true,
    contains_detach_fst h.indexed, contains_sweep_fst (h.detach e), contains_detach h.indexed]
  have hkept : ((c.detach e).2.sweep (Visit.following e forced (c.detach e).1)).2.quads.contains q
      = true → (c.detach e).2.quads.contains q = true :=
    fun hq => members_sweep_subset (h.detach e) _ hq
  rw [contains_detach h.indexed] at hkept
  grind

/-- A quad without a blank node goes with an entity only if the entity owns it. -/
theorem owner_eq_of_uprooted (h : c.Consistent) {e : Entity} {forced : Bool}
    (hq : c.quads.contains q = true) (hgone : ¬ (c.uproot e forced).2.quads.contains q = true)
    (hblank : q.involvesBlank = false) : q.owner = e ∧ e.isBlank = false := by
  by_cases hattached : q.AttachedTo e
  · cases e with
    | blank b =>
        rw [Quad.involvesBlank_of_attachedTo hattached] at hblank
        exact absurd hblank Bool.noConfusion
    | iri name =>
        refine ⟨hattached.resolve_right fun hreference => ?_, rfl⟩
        exact Bool.false_ne_true hreference.1
  · have hleft := (contains_detach h.indexed).mpr ⟨hq, hattached⟩
    have hswept := involvesBlank_of_swept (h.detach e) _ hleft hgone
    rw [hswept] at hblank
    exact absurd hblank Bool.noConfusion

theorem owner_ne_of_left (h : c.Consistent) {e : Entity} {forced : Bool}
    (hq : (c.uproot e forced).2.quads.contains q = true) : q.owner ≠ e := by
  have hleft := members_sweep_subset (h.detach e) _ hq
  rw [members_detach h] at hleft
  exact fun heq => hleft.2 (.inl heq)

theorem unforced_orphans (quads : List Quad) : ∀ v ∈ Visit.orphans quads, v.forced = false :=
  fun _ hv => (Visit.mem_orphans.mp hv).1

end Contents

/-! ## Mutations -/

/-- What a step takes away and brings, with the contents to which it leads. -/
structure Mutation where
  lost : List Quad
  gained : List Quad
  after : Contents

/-- The record of a mutation agrees with the dataset before it.  If a gained quad
is lost in the same step, all gained quads are. -/
structure Mutation.Accounts (m : Mutation) (before : Dataset) : Prop where
  lost_iff : ∀ q, m.lost.contains q = true ↔
    (before.contains q = true ∨ m.gained.contains q = true) ∧
      ¬ m.after.quads.contains q = true
  gained_new : ∀ q, m.gained.contains q = true → ¬ before.contains q = true
  left : ∀ q, m.after.quads.contains q = true →
    before.contains q = true ∨ m.gained.contains q = true
  swept : ∀ q, m.gained.contains q = true → m.lost.contains q = true →
    q.involvesBlank = true ∧
      ∀ x, m.gained.contains x = true → ¬ m.after.quads.contains x = true

namespace Session

variable {s : Session}

/-- What the replacement of values does. -/
def replacement (s : Session) (e : Entity) (predicate : Predicate) (values : List Node)
    (graph : Option Node) (locale : Option Locale) : Mutation :=
  let (removed, contents) :=
    s.contents.remove (s.selected e predicate.term (graph.map Node.term) locale)
  let (added, contents) := contents.add (quadsOfValues e predicate graph values)
  let (collected, contents) := contents.sweep (Visit.orphans removed)
  { lost := removed.filter (fun q => !added.contains q) ++ collected.flatMap Removal.quads
    gained := added.filter fun q => !removed.contains q
    after := contents }

/-- What the deletion of an entity does. -/
def deletion (s : Session) (e : Entity) (policy : DeletePolicy) : Mutation :=
  let (removals, contents) := s.contents.uproot e policy.deleteChildren
  let nullify := policy.nullifyReferences && !e.isBlank
  let (references, dataset) :=
    if nullify then contents.quads.removeWithObject e.toTerm else ([], contents.quads)
  { lost := removals.flatMap Removal.quads ++ references
    gained := []
    after := { contents with quads := dataset } }

theorem replaced_eq (s : Session) (e : Entity) (predicate : Predicate) (values : List Node)
    (graph : Option Node) (locale : Option Locale) :
    s.replaced e predicate values graph locale =
      { s with
        contents := (s.replacement e predicate values graph locale).after
        log := if s.isTracking then
            s.log.addAll (editsOf (s.replacement e predicate values graph locale).after.quads e
              (s.replacement e predicate values graph locale).lost
              (s.replacement e predicate values graph locale).gained)
          else s.log } := rfl

/-- The replacement of values after which there is no blank node to visit. -/
def replacedAlone (s : Session) (e : Entity) (predicate : Predicate) (values : List Node)
    (graph : Option Node) (locale : Option Locale) : Session :=
  let (removed, contents) :=
    s.contents.remove (s.selected e predicate.term (graph.map Node.term) locale)
  let (added, contents) := contents.add (quadsOfValues e predicate graph values)
  { s with
    contents
    log := if s.isTracking then
        s.log.addAll (editsOf contents.quads e (removed.filter fun q => !added.contains q)
          (added.filter fun q => !removed.contains q))
      else s.log }

theorem replaced_eq_replacedAlone {e : Entity} {predicate : Predicate} {values : List Node}
    {graph : Option Node} {locale : Option Locale}
    (h : Visit.orphans
      (s.contents.remove (s.selected e predicate.term (graph.map Node.term) locale)).1 = []) :
    s.replaced e predicate values graph locale =
      s.replacedAlone e predicate values graph locale := by
  simp only [replaced, replacedAlone, h, Contents.sweep, List.flatMap_nil, List.append_nil]

/-- A run goes on without a sweep after values whose removal leaves no blank node to
visit. -/
theorem run_replace_eq (hlive : s.closed = false) {e : Entity} {p : Predicate}
    {values : List Node} {graph : Option Node} {locale : Option Locale}
    (h : Visit.orphans
      (s.contents.remove (s.selected e p.term (graph.map Node.term) locale)).1 = [])
    (later : List Command) :
    s.run (.replace e p.node values graph locale :: later) =
      (s.replacedAlone e p values graph locale).run later := by
  have hstep : s.step (.replace e p.node values graph locale) =
      s.replacedAlone e p values graph locale :=
    step_eq_of_perform (replace_eq_ok.mpr ⟨hlive, p, rfl, replaced_eq_replacedAlone h⟩)
  rw [run, List.foldl_cons, hstep, run]

theorem deleted_eq (s : Session) (e : Entity) (policy : DeletePolicy) :
    s.deleted e policy =
      { s with
        contents := (s.deletion e policy).after
        log := if s.isTracking then
            s.log.addAll (deletionOf (s.deletion e policy).after.quads e policy
              (s.deletion e policy).lost)
          else s.log } := rfl

theorem quadsOfValues_owner {e : Entity} {predicate : Predicate} {graph : Option Node}
    {values : List Node} {q : Quad}
    (hq : (quadsOfValues e predicate graph values).contains q = true) : q.owner = e := by
  obtain ⟨x, hx, hqx⟩ := List.contains_iff_exists_mem_beq.mp hq
  obtain ⟨value, -, rfl⟩ := List.mem_map.mp hx
  exact Quad.owner_eq_of_statement_eq (Quad.beq_iff.mp hqx)

/-- A test whether a list of quads lacks a quad does not tell equal quads apart. -/
theorem contains_filter_not_contains (quads others : List Quad) (q : Quad) :
    (quads.filter fun x => !others.contains x).contains q =
      (quads.contains q && !others.contains q) := by
  refine Quads.contains_filter_list (fun a b hab => ?_)
  have hsame : others.contains a = others.contains b := by
    rw [Bool.eq_iff_iff, List.contains_iff_exists_mem_beq, List.contains_iff_exists_mem_beq]
    simp only [BEq.congr_left hab]
  rw [hsame]

/-! ### The stages of a replacement -/

/-- The quads of the old values, and the contents without them. -/
def cleared (s : Session) (e : Entity) (predicate : Predicate) (graph : Option Node)
    (locale : Option Locale) : List Quad × Contents :=
  s.contents.remove (s.selected e predicate.term (graph.map Node.term) locale)

/-- The quads of the new values that were not there then, and the contents with them. -/
def restated (s : Session) (e : Entity) (predicate : Predicate) (values : List Node)
    (graph : Option Node) (locale : Option Locale) : List Quad × Contents :=
  (s.cleared e predicate graph locale).2.add (quadsOfValues e predicate graph values)

section

variable {e : Entity} {predicate : Predicate} {values : List Node} {graph : Option Node}
  {locale : Option Locale} {q : Quad}

theorem contains_cleared_fst : (s.cleared e predicate graph locale).1.contains q =
    ((s.selected e predicate.term (graph.map Node.term) locale).contains q &&
      s.contents.quads.contains q) :=
  s.contents.quads.contains_removeAll_fst _ q

theorem contains_cleared : (s.cleared e predicate graph locale).2.quads.contains q =
    (s.contents.quads.contains q &&
      !(s.selected e predicate.term (graph.map Node.term) locale).contains q) :=
  s.contents.quads.contains_removeAll _ q

theorem contains_restated_fst : (s.restated e predicate values graph locale).1.contains q =
    ((quadsOfValues e predicate graph values).contains q &&
      !(s.cleared e predicate graph locale).2.quads.contains q) :=
  (s.cleared e predicate graph locale).2.quads.contains_addAll_fst _ q

theorem contains_restated : (s.restated e predicate values graph locale).2.quads.contains q =
    ((quadsOfValues e predicate graph values).contains q ||
      (s.cleared e predicate graph locale).2.quads.contains q) :=
  (s.cleared e predicate graph locale).2.quads.contains_addAll _ q

theorem consistent_restated (h : s.contents.Consistent) :
    (s.restated e predicate values graph locale).2.Consistent :=
  (h.remove _).add _

theorem contains_gained :
    (s.replacement e predicate values graph locale).gained.contains q =
      ((s.restated e predicate values graph locale).1.contains q &&
        !(s.cleared e predicate graph locale).1.contains q) :=
  contains_filter_not_contains ..

end

theorem accounts_replacement (h : s.contents.Consistent) (e : Entity) (predicate : Predicate)
    (values : List Node) (graph : Option Node) (locale : Option Locale) :
    (s.replacement e predicate values graph locale).Accounts s.contents.quads := by
  let removed := (s.cleared e predicate graph locale).1
  let added := (s.restated e predicate values graph locale).1
  let middle := (s.restated e predicate values graph locale).2
  let collected := (middle.sweep (Visit.orphans removed)).1.flatMap Removal.quads
  let final := (middle.sweep (Visit.orphans removed)).2
  have hmiddle : middle.Consistent := consistent_restated h
  have hcollected : ∀ q, collected.contains q = true ↔
      middle.quads.contains q = true ∧ ¬ final.quads.contains q = true :=
    fun q => Contents.contains_sweep_fst hmiddle _
  have hfinal : ∀ q, final.quads.contains q = true → middle.quads.contains q = true :=
    fun q hq => Contents.members_sweep_subset hmiddle _ hq
  have hlost : ∀ q, (s.replacement e predicate values graph locale).lost.contains q = true ↔
      (removed.contains q = true ∧ added.contains q = false) ∨ collected.contains q = true := by
    intro q
    change (removed.filter (fun q => !added.contains q) ++ collected).contains q = true ↔ _
    rw [List.contains_append, Bool.or_eq_true, contains_filter_not_contains, Bool.and_eq_true,
      Bool.not_eq_true']
  have hafter : (s.replacement e predicate values graph locale).after = final := rfl
  constructor
  · intro q
    rw [hlost, contains_gained, hafter, hcollected, contains_restated, contains_restated_fst,
      contains_cleared, contains_cleared_fst]
    have hq := hfinal q
    rw [contains_restated, contains_cleared] at hq
    grind
  · intro q hq
    rw [contains_gained, contains_restated_fst, contains_cleared, contains_cleared_fst] at hq
    grind
  · intro q hq
    have hthere := hfinal q hq
    rw [contains_restated, contains_cleared] at hthere
    rw [contains_gained, contains_restated_fst, contains_cleared, contains_cleared_fst]
    grind
  · intro q hgain hloss
    rw [hlost] at hloss
    rw [contains_gained, Bool.and_eq_true, Bool.not_eq_true'] at hgain
    have hswept : collected.contains q = true := by grind
    obtain ⟨hq, hgone⟩ := (hcollected q).mp hswept
    refine ⟨Contents.involvesBlank_of_swept hmiddle _ hq hgone, fun x hx hleft => ?_⟩
    -- both quads are values of the entity, which was swept away as a whole
    have howner : ∀ y, added.contains y = true → y.owner = e := by
      intro y hy
      rw [contains_restated_fst, Bool.and_eq_true] at hy
      exact quadsOfValues_owner hy.1
    rw [contains_gained, Bool.and_eq_true] at hx
    have hwhole := (Contents.owner_of_swept hmiddle (Contents.unforced_orphans removed) hq hgone).2
    exact hwhole x hleft ((howner x hx.1).trans (howner q hgain.1).symm)

section

variable {e : Entity} {predicate : Predicate} {values : List Node} {graph : Option Node}
  {locale : Option Locale} {q : Quad}

/-- A replacement gains the quads of the new values that were not there. -/
theorem contains_gained_replacement :
    (s.replacement e predicate values graph locale).gained.contains q = true ↔
      (quadsOfValues e predicate graph values).contains q = true ∧
        ¬ s.contents.quads.contains q = true := by
  rw [contains_gained, contains_restated_fst, contains_cleared, contains_cleared_fst]
  grind

/-- An entity with an IRI keeps the new values. -/
theorem contains_after_of_stated (h : s.contents.Consistent) (he : e.isBlank = false)
    (hq : (quadsOfValues e predicate graph values).contains q = true) :
    (s.replacement e predicate values graph locale).after.quads.contains q = true := by
  let middle := (s.restated e predicate values graph locale).2
  have hmiddle : middle.Consistent := consistent_restated h
  have hthere : middle.quads.contains q = true := by
    rw [contains_restated, hq, Bool.true_or]
  by_contra hgone
  have hblank := (Contents.owner_of_swept hmiddle (Contents.unforced_orphans _) hthere hgone).1
  rw [quadsOfValues_owner hq, he] at hblank
  exact Bool.noConfusion hblank

/-- No quad that is gained on behalf of an entity with an IRI is lost in the same
step. -/
theorem not_lost_of_gained (h : s.contents.Consistent) (he : e.isBlank = false)
    (hq : (s.replacement e predicate values graph locale).gained.contains q = true) :
    ¬ (s.replacement e predicate values graph locale).lost.contains q = true := by
  intro hlost
  have hm := accounts_replacement h e predicate values graph locale
  exact ((hm.lost_iff q).mp hlost).2
    (contains_after_of_stated h he (contains_gained_replacement.mp hq).1)

end

/-- The changes that record the deletion of the entity drop the quad in whatever
graph it lies. -/
def Drops (e : Entity) (policy : DeletePolicy) (q : Quad) : Prop :=
  e.isBlank = false ∧
    (q.owner = e ∨ policy.nullifyReferences = true ∧ q.object.term = e.toTerm)

theorem contains_after_deletion (h : s.contents.Consistent) (e : Entity) (policy : DeletePolicy)
    (q : Quad) : (s.deletion e policy).after.quads.contains q = true ↔
      (s.contents.uproot e policy.deleteChildren).2.quads.contains q = true ∧
        ¬ (policy.nullifyReferences = true ∧ e.isBlank = false ∧ q.object.term = e.toTerm) := by
  have hmembers := members_deleted h e policy
  exact Set.ext_iff.mp hmembers q

theorem contains_lost_deletion (h : s.contents.Consistent) (e : Entity) (policy : DeletePolicy)
    (q : Quad) : (s.deletion e policy).lost.contains q = true ↔
      s.contents.quads.contains q = true ∧
        ¬ (s.deletion e policy).after.quads.contains q = true := by
  have huproot := (h.uproot e policy.deleteChildren).indexed
  have hkept : (s.contents.uproot e policy.deleteChildren).2.quads.contains q = true →
      s.contents.quads.contains q = true :=
    fun hq => Contents.members_uproot_subset h e policy.deleteChildren hq
  rw [contains_after_deletion h]
  simp only [deletion]
  rw [List.contains_append, Bool.or_eq_true, Contents.contains_uproot_fst h]
  split
  · rename_i hnullify
    simp only [Dataset.removeWithObject]
    rw [huproot.contains_withObject]
    grind
  · rename_i hkeep
    simp only [List.contains_nil]
    grind

theorem accounts_deletion (h : s.contents.Consistent) (e : Entity) (policy : DeletePolicy) :
    (s.deletion e policy).Accounts s.contents.quads := by
  have hgained : ∀ q, ¬ (s.deletion e policy).gained.contains q = true :=
    fun q => Bool.eq_false_iff.mp rfl
  constructor
  · intro q
    rw [contains_lost_deletion h, or_iff_left (hgained q)]
  · intro q hq
    exact absurd hq (hgained q)
  · intro q hq
    rw [contains_after_deletion h] at hq
    exact .inl (Contents.members_uproot_subset h e policy.deleteChildren hq.1)
  · intro q hq
    exact absurd hq (hgained q)

/-- What the changes for every graph drop is gone from the session. -/
theorem not_drops_of_left (h : s.contents.Consistent) {e : Entity} {policy : DeletePolicy}
    {q : Quad} (hq : (s.deletion e policy).after.quads.contains q = true) : ¬ Drops e policy q := by
  rw [contains_after_deletion h] at hq
  intro hdrops
  rcases hdrops with ⟨hiri, howner | hreference⟩
  · exact Contents.owner_ne_of_left h hq.1 howner
  · exact hq.2 ⟨hreference.1, hiri, hreference.2⟩

/-- A quad without a blank node is lost only if those changes drop it. -/
theorem drops_of_lost (h : s.contents.Consistent) {e : Entity} {policy : DeletePolicy}
    {q : Quad} (hq : (s.deletion e policy).lost.contains q = true) (hblank : q.involvesBlank = false) :
    Drops e policy q := by
  rw [contains_lost_deletion h, contains_after_deletion h] at hq
  obtain ⟨hthere, hgone⟩ := hq
  by_cases hleft : (s.contents.uproot e policy.deleteChildren).2.quads.contains q = true
  · by_contra hdrops
    refine hgone ⟨hleft, fun hreference => hdrops ?_⟩
    exact ⟨hreference.2.1, .inr ⟨hreference.1, hreference.2.2⟩⟩
  · obtain ⟨howner, hiri⟩ := Contents.owner_eq_of_uprooted h hthere hleft hblank
    exact ⟨hiri, .inl howner⟩

end Session

end QuadSession

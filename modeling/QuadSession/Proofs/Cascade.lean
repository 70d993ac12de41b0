import Mathlib.Order.Bounds.Basic
import QuadSession.Proofs.References

/-!
# What a cascade takes along

A cascade works off a list of visits and looks at the counts of the moment, so
it may pass a blank node by that is still referred to and be led to it once more
when the last reference is gone.  This file proves that neither the order of the
visits nor such early looks matter: what goes is determined by the quads alone,
as the least set that holds what is removed at the start and leaves no orphan.

## Strategy

A visit that is not forced removes something exactly if it goes to a stray, a blank
node that owns quads and that nothing refers to (`Contents.Consistent.isDue_iff`).
A cascade under way satisfies `Contents.Cascading`: what is gone belongs to every
set that leaves no orphan, and whatever is orphaned already is still to be
visited.  When no visits remain, the second part says that the quads that are
gone leave no orphan themselves, and the first that they are the least such set.

## Main statements

* `Contents.Cascading.isLeast_sweep`: a sweep removes the least set.
* `Contents.Cascading.members_sweep_perm`: the order of the visits does not matter.
* `Session.delete_isLeast`: so does the deletion of an entity, up to the
  references to an entity with an IRI that the policy removes.
-/

namespace QuadSession

/-- The quads of a dataset as a set. -/
def Dataset.members (d : Dataset) : Set Quad :=
  {q | d.contains q = true}

/-- The dataset lists a quad that states the same as the member. -/
theorem Dataset.exists_mem_quads {d : Dataset} {q : Quad} (hq : q ∈ d.members) :
    ∃ x ∈ d.quads, (q == x) = true :=
  List.contains_iff_exists_mem_beq.mp (Dataset.contains_quads.trans hq)

/-- Taking `D` out of `S` leaves no orphan: a blank node to which a quad of `D`
refers and no quad outside of `D` owns nothing outside of `D`. -/
def LeavesNoOrphan (S D : Set Quad) : Prop :=
  ∀ b : Blank, (∃ r ∈ D, r.object.term = .blank b) →
    (∀ r ∈ S, r.object.term = .blank b → r ∈ D) →
    ∀ q ∈ S, q.owner = .blank b → q ∈ D

namespace Contents

variable {c : Contents} {v : Visit}

theorem Consistent.count_eq_zero_iff (h : c.Consistent) (b : Blank) :
    c.tally.count b = 0 ↔ ∀ r ∈ c.quads.members, r.object.term ≠ .blank b := by
  rw [h.count_eq]
  constructor
  · intro hzero r hr hobject
    obtain ⟨x, hx, hrx⟩ := Dataset.exists_mem_quads hr
    have hmiss := List.countP_eq_zero.mp hzero x hx
    exact hmiss (beq_iff_eq.mpr ((Quad.object_eq_of_beq hrx).symm.trans hobject))
  · intro hnone
    exact referencesTo_eq_zero fun r hr => hnone r (Dataset.contains_of_mem_quads hr)

/-- A blank node that owns quads and that nothing refers to. -/
structure Stray (c : Contents) (b : Blank) : Prop where
  unreferenced : ∀ r ∈ c.quads.members, r.object.term ≠ .blank b
  owns : ∃ q ∈ c.quads.members, q.owner = .blank b

/-- A visit is due if and only if it is forced or nothing refers to its blank node, and a
quad goes with the blank node. -/
theorem Consistent.isDue_iff_attachedTo (h : c.Consistent) : c.isDue v = true ↔
    (v.forced = true ∨ c.tally.count v.blank = 0) ∧
      ∃ q ∈ c.quads.members, q.AttachedTo (.blank v.blank) := by
  have hattached : (c.quads.hasOwner (.blank v.blank) ||
      !(c.quads.referrers (.blank v.blank)).isEmpty) = true ↔
        ∃ q ∈ c.quads.members, q.AttachedTo (.blank v.blank) := by
    rw [Bool.or_eq_true, h.indexed.hasOwner_iff, Bool.not_eq_true',
      List.isEmpty_eq_false_iff_exists_mem]
    constructor
    · rintro (⟨q, hq, howner⟩ | ⟨e, he⟩)
      · exact ⟨q, hq, .inl howner⟩
      · obtain ⟨q, hq, hobject, -⟩ := h.indexed.mem_referrers.mp he
        exact ⟨q, hq, .inr ⟨rfl, hobject⟩⟩
    · rintro ⟨q, hq, howner | ⟨-, hobject⟩⟩
      · exact .inl ⟨q, hq, howner⟩
      · exact .inr ⟨q.owner, h.indexed.mem_referrers.mpr ⟨q, hq, hobject, rfl⟩⟩
  rw [isDue, Bool.and_eq_true, hattached, Bool.or_eq_true, beq_iff_eq]

/-- A visit to a stray removes it. -/
theorem Consistent.isDue_of_stray (h : c.Consistent) (hstray : c.Stray v.blank) :
    c.isDue v = true := by
  obtain ⟨q, hq, howner⟩ := hstray.owns
  have hzero : c.tally.count v.blank = 0 :=
    (h.count_eq_zero_iff v.blank).mpr hstray.unreferenced
  exact h.isDue_iff_attachedTo.mpr ⟨.inr hzero, q, hq, .inl howner⟩

/-- A visit that is not forced removes nothing but strays. -/
theorem Consistent.isDue_iff (h : c.Consistent) (hforced : v.forced = false) :
    c.isDue v = true ↔ c.Stray v.blank := by
  refine ⟨fun hdue => ?_, h.isDue_of_stray⟩
  rw [h.isDue_iff_attachedTo, hforced, or_iff_right Bool.false_ne_true,
    h.count_eq_zero_iff] at hdue
  obtain ⟨hnone, q, hq, howner | ⟨-, hobject⟩⟩ := hdue
  · exact ⟨hnone, q, hq, howner⟩
  · exact absurd hobject (hnone q hq)

/-! ## A cascade under way -/

/-- A cascade that has to remove at least `B` from `S` has come to the contents `c`
and is still to make the visits. -/
structure Cascading (S B : Set Quad) (c : Contents) (visits : List Visit) : Prop where
  consistent : c.Consistent
  kept : c.quads.members ⊆ S
  /-- What is gone has to go. -/
  gone : ∀ D, B ⊆ D → LeavesNoOrphan S D → S \ c.quads.members ⊆ D
  unforced : ∀ v ∈ visits, v.forced = false
  referred : ∀ v ∈ visits, ∃ r ∈ S, r.object.term = .blank v.blank
  /-- What is orphaned is still to be visited. -/
  awaited : ∀ b, (∃ r ∈ S \ c.quads.members, r.object.term = .blank b) →
    (∀ r ∈ c.quads.members, r.object.term ≠ .blank b) →
    (∃ q ∈ c.quads.members, q.owner = .blank b) → ∃ v ∈ visits, v.blank = b

variable {S B : Set Quad} {rest : List Visit}

theorem members_detach (h : c.Consistent) (e : Entity) :
    (c.detach e).2.quads.members = c.quads.members \ {q | q.AttachedTo e} := by
  ext q
  exact contains_detach h.indexed

/-- A quad that is found in a list is listed with the same object. -/
theorem exists_mem_of_object {quads : List Quad} {q : Quad} {b : Blank}
    (hq : quads.contains q = true) (hobject : q.object.term = .blank b) :
    ∃ x ∈ quads, x.object.term.blank? = some b := by
  obtain ⟨x, hx, hqx⟩ := List.contains_iff_exists_mem_beq.mp hq
  exact ⟨x, hx, Term.blank?_eq_some.mpr ((Quad.object_eq_of_beq hqx).symm.trans hobject)⟩

/-- The removed quads with a blank object lead to a visit, unless the object is the
removed entity. -/
theorem exists_mem_following (h : c.Consistent) {e : Entity} {q : Quad} {b : Blank}
    (forced : Bool) (hq : q ∈ c.quads.members) (hattached : q.AttachedTo e)
    (hobject : q.object.term = .blank b) (hne : Entity.blank b ≠ e) :
    ∃ v ∈ Visit.following e forced (c.detach e).1, v.blank = b := by
  have hremoved : (c.detach e).1.contains q = true :=
    (contains_detach_fst h.indexed).mpr ⟨hq, hattached⟩
  obtain ⟨x, hx, hblank⟩ := exists_mem_of_object hremoved hobject
  refine ⟨⟨b, forced && x.owner == e⟩, ?_, rfl⟩
  unfold Visit.following
  rw [List.mem_filterMap]
  refine ⟨x, hx, ?_⟩
  simp [hblank, hne]

/-- A stray that is left by the removal of an entity was one before, or the removal
leads to a visit of it. -/
theorem Stray.of_detach {e : Entity} {b : Blank} (hb : (c.detach e).2.Stray b)
    (h : c.Consistent) (forced : Bool) : Entity.blank b ≠ e ∧
      (c.Stray b ∨ ∃ v ∈ Visit.following e forced (c.detach e).1, v.blank = b) := by
  have hmembers := members_detach h e
  have hnone := hb.unreferenced
  obtain ⟨q, hq, howner⟩ := hb.owns
  rw [hmembers] at hnone hq
  have hne : Entity.blank b ≠ e := fun heq => hq.2 (.inl (howner.trans heq))
  refine ⟨hne, ?_⟩
  -- the last reference to `b` went now or was gone before
  by_cases hnow : ∃ r ∈ c.quads.members, r.object.term = .blank b
  · obtain ⟨r, hr, hobject⟩ := hnow
    have hattached : r.AttachedTo e := by
      by_contra hfree
      exact hnone r ⟨hr, hfree⟩ hobject
    exact .inr (exists_mem_following h forced hr hattached hobject hne)
  · exact .inl ⟨fun r hr hobject => hnow ⟨r, hr, hobject⟩, q, hq.1, howner⟩

/-- A visit that follows a removal goes to the object of a removed quad, and is forced
if the removal was and the entity owned the quad. -/
theorem exists_of_mem_following (h : c.Consistent) {e : Entity} {forced : Bool}
    (hv : v ∈ Visit.following e forced (c.detach e).1) :
    ∃ q ∈ c.quads.members, q.AttachedTo e ∧ q.object.term = .blank v.blank ∧
      Entity.blank v.blank ≠ e ∧ v.forced = (forced && q.owner == e) := by
  unfold Visit.following at hv
  obtain ⟨x, hx, hvisit⟩ := List.mem_filterMap.mp hv
  have hmember : (c.detach e).1.contains x = true :=
    Quads.contains_of_mem hx
  obtain ⟨hthere, hattached⟩ := (contains_detach_fst h.indexed).mp hmember
  cases hblank : x.object.term.blank? with
  | none => simp [hblank] at hvisit
  | some b =>
      simp only [hblank] at hvisit
      split at hvisit
      · cases hvisit
      · rename_i hne
        cases hvisit
        exact ⟨x, hthere, hattached, Term.blank?_eq_some.mp hblank, hne, rfl⟩

/-- The visits that follow an unforced removal are unforced, and each goes to the
object of a removed quad. -/
theorem of_mem_following (h : c.Consistent) {e : Entity}
    (hv : v ∈ Visit.following e false (c.detach e).1) :
    v.forced = false ∧ ∃ r ∈ c.quads.members, r.object.term = .blank v.blank := by
  obtain ⟨r, hr, -, hobject, -, hforced⟩ := exists_of_mem_following h hv
  exact ⟨hforced, r, hr, hobject⟩

/-- Removing an entity takes the cascade a step further, provided that what is
attached to the entity has to go. -/
theorem Cascading.detach {e : Entity} {visits : List Visit} (h : c.Cascading S B visits)
    (hmust : ∀ D, B ⊆ D → LeavesNoOrphan S D → ∀ q ∈ c.quads.members, q.AttachedTo e → q ∈ D)
    (hrest : ∀ v ∈ visits, v ∈ rest ∨ Entity.blank v.blank = e) (hsub : ∀ v ∈ rest, v ∈ visits) :
    (c.detach e).2.Cascading S B (Visit.following e false (c.detach e).1 ++ rest) := by
  have hmembers := members_detach h.consistent e
  refine ⟨h.consistent.detach e, ?_, ?_, ?_, ?_, ?_⟩
  · rw [hmembers]
    exact fun q hq => h.kept hq.1
  · intro D hB hD q hq
    by_cases hmember : q ∈ c.quads.members
    · refine hmust D hB hD q hmember ?_
      by_contra hfree
      refine hq.2 ?_
      rw [hmembers]
      exact ⟨hmember, hfree⟩
    · exact h.gone D hB hD ⟨hq.1, hmember⟩
  · intro v hv
    rcases List.mem_append.mp hv with hnew | hold
    · exact (of_mem_following h.consistent hnew).1
    · exact h.unforced v (hsub v hold)
  · intro v hv
    rcases List.mem_append.mp hv with hnew | hold
    · obtain ⟨r, hr, hobject⟩ := (of_mem_following h.consistent hnew).2
      exact ⟨r, h.kept hr, hobject⟩
    · exact h.referred v (hsub v hold)
  · intro b hgone hnone hown
    have hstray : (c.detach e).2.Stray b := ⟨hnone, hown⟩
    obtain ⟨hne, hbefore | hfollowing⟩ := hstray.of_detach h.consistent false
    · obtain ⟨r, hr, hobject⟩ := hgone
      have hold : r ∈ S \ c.quads.members :=
        ⟨hr.1, fun hin => hbefore.unreferenced r hin hobject⟩
      obtain ⟨v, hv, hblank⟩ := h.awaited b ⟨r, hold, hobject⟩ hbefore.unreferenced hbefore.owns
      refine ⟨v, List.mem_append_right _ ?_, hblank⟩
      exact (hrest v hv).resolve_right fun heq => hne (hblank ▸ heq)
    · obtain ⟨v, hv, hblank⟩ := hfollowing
      exact ⟨v, List.mem_append_left _ hv, hblank⟩

theorem Cascading.visit (h : c.Cascading S B (v :: rest)) (hdue : c.isDue v = true) :
    (c.detach (.blank v.blank)).2.Cascading S B
      (Visit.following (.blank v.blank) v.forced (c.detach (.blank v.blank)).1 ++ rest) := by
  have hforced := h.unforced v List.mem_cons_self
  have hnone := ((h.consistent.isDue_iff hforced).mp hdue).unreferenced
  rw [hforced]
  refine h.detach ?_ ?_ ?_
  · intro D hB hD q hq hattached
    have hgone := h.gone D hB hD
    have howner : q.owner = .blank v.blank := by
      rcases hattached with howner | ⟨-, hobject⟩
      · exact howner
      · exact absurd hobject (hnone q hq)
    -- all references to the blank node are gone, so they are in `D`
    have hrefs : ∀ r ∈ S, r.object.term = .blank v.blank → r ∈ D :=
      fun r hr hobject => hgone ⟨hr, fun hin => hnone r hin hobject⟩
    obtain ⟨r, hr, hobject⟩ := h.referred v List.mem_cons_self
    exact hD v.blank ⟨r, hrefs r hr hobject, hobject⟩ hrefs q (h.kept hq) howner
  · intro w hw
    rcases List.mem_cons.mp hw with rfl | hold
    · exact .inr rfl
    · exact .inl hold
  · intro w hw
    exact List.mem_cons_of_mem v hw

theorem Cascading.pass (h : c.Cascading S B (v :: rest)) (hidle : ¬ c.isDue v = true) :
    c.Cascading S B rest where
  consistent := h.consistent
  kept := h.kept
  gone := h.gone
  unforced w hw := h.unforced w (List.mem_cons_of_mem v hw)
  referred w hw := h.referred w (List.mem_cons_of_mem v hw)
  awaited b hgone hnone hown := by
    obtain ⟨w, hw, rfl⟩ := h.awaited b hgone hnone hown
    rcases List.mem_cons.mp hw with rfl | hold
    · have hforced := h.unforced w List.mem_cons_self
      exact absurd ((h.consistent.isDue_iff hforced).mpr ⟨hnone, hown⟩) hidle
    · exact ⟨w, hold, rfl⟩

theorem members_sweep_subset (h : c.Consistent) (visits : List Visit) :
    (c.sweep visits).2.quads.members ⊆ c.quads.members := by
  fun_induction Contents.sweep c visits with
  | case1 c => exact fun q hq => hq
  | case2 c v rest hdue e removed more final hsweep =>
      rename_i ih
      rw [hsweep] at ih
      intro q hq
      have hleft := ih (h.detach _) hq
      rw [members_detach h] at hleft
      exact hleft.1
  | case3 c v rest hidle ih => exact ih h

/-- When a cascade is over, what is gone is the least set of quads that holds `B`
and leaves no orphan. -/
theorem Cascading.isLeast_sweep {visits : List Visit} (h : c.Cascading S B visits)
    (hB : B ⊆ S \ c.quads.members) :
    IsLeast {D | B ⊆ D ∧ D ⊆ S ∧ LeavesNoOrphan S D}
      (S \ (c.sweep visits).2.quads.members) := by
  fun_induction Contents.sweep c visits with
  | case1 c =>
      refine ⟨⟨hB, Set.sdiff_subset, ?_⟩, fun D hD => h.gone D hD.1 hD.2.2⟩
      intro b hgone hrefs q hq howner
      refine ⟨hq, fun hleft => ?_⟩
      have hnone : ∀ r ∈ c.quads.members, r.object.term ≠ .blank b :=
        fun r hr hobject => (hrefs r (h.kept hr) hobject).2 hr
      obtain ⟨v, hv, -⟩ := h.awaited b hgone hnone ⟨q, hleft, howner⟩
      cases hv
  | case2 c v rest hdue e removed more final hsweep ih =>
      rw [hsweep] at ih
      refine ih (h.visit hdue) fun q hq => ?_
      have hold := hB hq
      refine ⟨hold.1, fun hleft => hold.2 ?_⟩
      rw [members_detach h.consistent] at hleft
      exact hleft.1
  | case3 c v rest hidle ih => exact ih (h.pass hidle) hB

theorem Cascading.perm {visits others : List Visit} (h : c.Cascading S B visits)
    (hperm : visits.Perm others) : c.Cascading S B others where
  consistent := h.consistent
  kept := h.kept
  gone := h.gone
  unforced v hv := h.unforced v (hperm.mem_iff.mpr hv)
  referred v hv := h.referred v (hperm.mem_iff.mpr hv)
  awaited b hgone hnone hown := by
    obtain ⟨v, hv, hblank⟩ := h.awaited b hgone hnone hown
    exact ⟨v, hperm.mem_iff.mp hv, hblank⟩

/-- In which order the visits are made does not matter. -/
theorem Cascading.members_sweep_perm {visits others : List Visit} (h : c.Cascading S B visits)
    (hB : B ⊆ S \ c.quads.members) (hperm : visits.Perm others) :
    (c.sweep visits).2.quads.members = (c.sweep others).2.quads.members := by
  have hgone := (h.isLeast_sweep hB).unique ((h.perm hperm).isLeast_sweep hB)
  have hkept := (members_sweep_subset h.consistent visits).trans h.kept
  have hkept' := (members_sweep_subset h.consistent others).trans h.kept
  rw [← Set.sdiff_sdiff_cancel_left hkept, hgone, Set.sdiff_sdiff_cancel_left hkept']

theorem members_uproot_subset (h : c.Consistent) (e : Entity) (forced : Bool) :
    (c.uproot e forced).2.quads.members ⊆ c.quads.members := by
  intro q hq
  have hleft := members_sweep_subset (h.detach e) _ hq
  rw [members_detach h] at hleft
  exact hleft.1

/-- What goes with an entity that is uprooted without force. -/
theorem isLeast_uproot (h : c.Consistent) (e : Entity) :
    IsLeast {D | {q ∈ c.quads.members | q.AttachedTo e} ⊆ D ∧ D ⊆ c.quads.members ∧
        LeavesNoOrphan c.quads.members D}
      (c.quads.members \ (c.uproot e false).2.quads.members) := by
  -- at the start nothing is gone and there is nothing to visit
  have hstart : c.Cascading c.quads.members {q ∈ c.quads.members | q.AttachedTo e} [] := by
    refine ⟨h, fun q hq => hq, ?_, ?_, ?_, ?_⟩
    · intro D hB hD q hq
      exact absurd hq.1 hq.2
    · intro v hv
      cases hv
    · intro v hv
      cases hv
    · intro b hgone
      obtain ⟨r, hr, -⟩ := hgone
      exact absurd hr.1 hr.2
  have hdetached : (c.detach e).2.Cascading c.quads.members
      {q ∈ c.quads.members | q.AttachedTo e} (Visit.following e false (c.detach e).1 ++ []) := by
    refine hstart.detach ?_ ?_ ?_
    · intro D hB hD q hq hattached
      exact hB ⟨hq, hattached⟩
    · intro v hv
      cases hv
    · intro v hv
      cases hv
  rw [List.append_nil] at hdetached
  refine hdetached.isLeast_sweep fun q hq => ⟨hq.1, fun hleft => ?_⟩
  rw [members_detach h] at hleft
  exact hleft.2 hq.2

end Contents

/-! ## Deleting an entity -/

namespace Session

/-- A set `D` of quads of `S` that can be removed together with the entity. -/
structure Departing (S : Set Quad) (e : Entity) (D : Set Quad) : Prop where
  subset : D ⊆ S
  owned : ∀ q ∈ S, q.owner = e → q ∈ D
  referring : e.isBlank = true → ∀ q ∈ S, q.object.term = e.toTerm → q ∈ D
  no_orphan : LeavesNoOrphan S D

theorem departing_iff {S D : Set Quad} {e : Entity} :
    Departing S e D ↔ {q ∈ S | q.AttachedTo e} ⊆ D ∧ D ⊆ S ∧ LeavesNoOrphan S D := by
  constructor
  · intro h
    refine ⟨fun q hq => ?_, h.subset, h.no_orphan⟩
    rcases hq.2 with howner | ⟨hblank, hobject⟩
    · exact h.owned q hq.1 howner
    · exact h.referring hblank q hq.1 hobject
  · intro h
    obtain ⟨hB, hsubset, hno⟩ := h
    exact ⟨hsubset, fun q hq howner => hB ⟨hq, .inl howner⟩,
      fun hblank q hq hobject => hB ⟨hq, .inr ⟨hblank, hobject⟩⟩, hno⟩

theorem members_deleted {s : Session} (h : s.contents.Consistent) (e : Entity)
    (policy : DeletePolicy) :
    (s.deleted e policy).contents.quads.members =
      (s.contents.uproot e policy.deleteChildren).2.quads.members \
        {q | policy.nullifyReferences = true ∧ e.isBlank = false ∧ q.object.term = e.toTerm} := by
  have huproot := (h.uproot e policy.deleteChildren).indexed
  ext q
  change (s.deleted e policy).contents.quads.contains q = true ↔ _ ∧ ¬ _
  simp only [deleted]
  split
  · rename_i hnullify
    rw [Bool.and_eq_true, Bool.not_eq_true'] at hnullify
    simp only [Dataset.removeWithObject]
    rw [Dataset.contains_removeAll, Bool.and_eq_true, Bool.not_eq_true', ← Bool.not_eq_true,
      huproot.contains_withObject]
    constructor
    · intro hleft
      exact ⟨hleft.1, fun hobject => hleft.2 ⟨hleft.1, hobject.2.2⟩⟩
    · intro hleft
      exact ⟨hleft.1, fun hobject => hleft.2 ⟨hnullify.1, hnullify.2, hobject.2⟩⟩
  · rename_i hkeep
    rw [Bool.and_eq_true, Bool.not_eq_true'] at hkeep
    exact (and_iff_left fun hobject => hkeep ⟨hobject.1, hobject.2.1⟩).symm

/-- Deleting an entity without force succeeds in every live session, and what goes
with the entity is the least set of quads that holds its own quads and, if it is
blank, the references to it, and that leaves no orphan.  For an entity with an IRI
the policy may remove the references on top. -/
theorem delete_isLeast {options : Options} {commands : List Command} {s : Session}
    (hs : (start options).run commands = s) (hlive : s.closed = false) (e : Entity)
    {policy : DeletePolicy} (hpolicy : policy.deleteChildren = false) :
    ∃ t D, s.delete e policy = .ok t ∧
      IsLeast {D | Departing s.contents.quads.members e D} D ∧
      t.contents.quads.members = (s.contents.quads.members \ D) \
        {q | policy.nullifyReferences = true ∧ e.isBlank = false ∧
          q.object.term = e.toTerm} := by
  have h : s.contents.Consistent := hs ▸ (consistent_run options commands).contents
  have hleast := Contents.isLeast_uproot h e
  simp only [← departing_iff] at hleast
  have hleft := members_deleted h e policy
  rw [hpolicy] at hleft
  refine ⟨_, _, delete_eq_ok.mpr ⟨hlive, rfl⟩, hleast, ?_⟩
  have hkept : (s.contents.uproot e false).2.quads.members ⊆ s.contents.quads.members :=
    Contents.members_uproot_subset h e false
  rw [hleft, Set.sdiff_sdiff_cancel_left hkept]

open Sample in
/-- A person is deleted who refers to an address that refers back. -/
theorem delete_isLeast_person :
    let s := (start {}).run [.load (.iri person)
      [fact (.iri person) livesAt (.blank address), fact (.blank address) knows (.iri person)]]
    s.closed = false ∧ DeletePolicy.none.deleteChildren = false ∧
      ∃ t D, s.delete (.iri person) .none = .ok t ∧
        IsLeast {D | Departing s.contents.quads.members (.iri person) D} D ∧
        t.contents.quads.members = (s.contents.quads.members \ D) \
          {q | DeletePolicy.none.nullifyReferences = true ∧ (Entity.iri person).isBlank = false ∧
            q.object.term = (Entity.iri person).toTerm} := by
  intro s
  have hlive : s.closed = false := by decide
  exact ⟨hlive, rfl, delete_isLeast rfl hlive (.iri person) rfl⟩

end Session

end QuadSession

import QuadSession.Proofs.Cascade

/-!
# What a forced cascade takes along

A forced cascade goes from every entity it removes to the blank objects of its quads
and removes them, whatever else refers to them.  While it does so it cuts paths: it
removes the quads that refer to a blank node together with the node, also those of
entities it has not come to yet.  This file proves that nothing is missed thereby.
What goes are the quads attached to the entities that were reached by the quads
before the cascade.

## Strategy

A forced cascade under way satisfies `Contents.Forcing`: what is gone was attached
to a reached entity, and the blank object of each quad that is gone is still to be
visited or has nothing attached to it any more.  So a path may be cut, but then the
visit that would have followed it is on the list already.  When no visits remain,
nothing is attached to any reached entity, by induction along the path that reaches
it.

The set that goes leaves no orphan.  With or without force, a removal therefore
takes the least set of quads that holds what is doomed and leaves no orphan.

## Main definitions

* `Reached`: the entities to which quads lead from an entity.
* `Doomed`: the quads that a removal takes whatever refers to their owners.

## Main statements

* `Contents.members_uproot_forced`: what a forced removal leaves.
* `Contents.isLeast_uproot_takes`: what a removal takes, with or without force.
* `Session.delete_forced_isLeast`: what a forced deletion leaves of a session.
-/

namespace QuadSession

variable {S T : Set Quad} {e r : Entity} {q : Quad} {b : Blank}

/-- The entities to which the quads of `S` lead from `e`: the entity itself, and the
blank objects of the quads of each entity that is reached. -/
inductive Reached (S : Set Quad) (e : Entity) : Entity → Prop
  | self : Reached S e e
  | child {q : Quad} {b : Blank} (reached : Reached S e q.owner) (member : q ∈ S)
      (object : q.object.term = .blank b) : Reached S e (.blank b)

theorem Reached.mono (h : S ⊆ T) (hr : Reached S e r) : Reached T e r := by
  induction hr with
  | self => exact .self
  | child _ hq hobject ih => exact .child ih (h hq) hobject

/-- A quad that goes with an entity is owned by it, or has no other blank object. -/
theorem Quad.AttachedTo.owner_eq_or (hattached : q.AttachedTo r)
    (hobject : q.object.term = .blank b) : q.owner = r ∨ Entity.blank b = r := by
  rcases hattached with howner | ⟨-, hterm⟩
  · exact .inl howner
  · exact .inr (Entity.toTerm_injective (hobject.symm.trans hterm))

/-- The blank object of a quad that goes with a reached entity is reached. -/
theorem Reached.of_attachedTo (hr : Reached S e r) (hq : q ∈ S) (hattached : q.AttachedTo r)
    (hobject : q.object.term = .blank b) : Reached S e (.blank b) := by
  rcases hattached.owner_eq_or hobject with rfl | rfl
  · exact .child hr hq hobject
  · exact hr

/-- The quads that the removal of an entity takes whatever refers to their owners:
those attached to the entity and, if it is forced, to the entities it reaches. -/
def Doomed (S : Set Quad) (e : Entity) (forced : Bool) : Set Quad :=
  {q ∈ S | ∃ r, (r = e ∨ forced = true ∧ Reached S e r) ∧ q.AttachedTo r}

theorem doomed_false : Doomed S e false = {q ∈ S | q.AttachedTo e} := by
  ext q
  simp [Doomed]

theorem doomed_true : Doomed S e true = {q ∈ S | ∃ r, Reached S e r ∧ q.AttachedTo r} := by
  ext q
  constructor
  · rintro ⟨hq, r, rfl | ⟨-, hr⟩, hattached⟩
    · exact ⟨hq, r, .self, hattached⟩
    · exact ⟨hq, r, hr, hattached⟩
  · rintro ⟨hq, r, hr, hattached⟩
    exact ⟨hq, r, .inr ⟨rfl, hr⟩, hattached⟩

theorem Doomed.mono {forced : Bool} (h : S ⊆ T) : Doomed S e forced ⊆ Doomed T e forced := by
  rintro q ⟨hq, r, hr, hattached⟩
  exact ⟨h hq, r, hr.imp_right (And.imp_right (Reached.mono h)), hattached⟩

/-- A blank node to which a doomed quad refers is reached by force, and so are the
quads that it owns. -/
theorem leavesNoOrphan_doomed (S : Set Quad) (e : Entity) :
    LeavesNoOrphan S (Doomed S e true) := by
  rw [doomed_true]
  rintro b ⟨x, ⟨hx, r, hr, hattached⟩, hobject⟩ - q hq howner
  exact ⟨hq, .blank b, hr.of_attachedTo hx hattached hobject, .inl howner⟩

/-- The sets of quads that can be taken out of `S` if `B` has to go. -/
def Takes (S B : Set Quad) : Set (Set Quad) :=
  {D | B ⊆ D ∧ D ⊆ S ∧ LeavesNoOrphan S D}

namespace Contents

variable {c : Contents} {v : Visit} {visits rest : List Visit}

/-! ## A forced cascade under way -/

/-- A forced cascade from the entity `e` has come from the quads `S` to the contents
`c` and is still to make the visits. -/
structure Forcing (S : Set Quad) (e : Entity) (c : Contents) (visits : List Visit) : Prop where
  consistent : c.Consistent
  kept : c.quads.members ⊆ S
  /-- What is gone went with a reached entity. -/
  gone : ∀ q ∈ S, q ∉ c.quads.members → ∃ r, Reached S e r ∧ q.AttachedTo r
  forced : ∀ v ∈ visits, v.forced = true ∧ Reached S e (.blank v.blank)
  /-- Where a quad that is gone leads to is still to be visited, or is gone too. -/
  awaited : ∀ q ∈ S, q ∉ c.quads.members → ∀ b, q.object.term = .blank b →
    (∃ v ∈ visits, v.blank = b) ∨ ∀ x ∈ c.quads.members, ¬ x.AttachedTo (.blank b)

/-- The visits that follow the forced removal of a reached entity are forced and go to
reached entities. -/
theorem forced_of_mem_following (h : c.Consistent) (hkept : c.quads.members ⊆ S)
    (hr : Reached S e r) (hv : v ∈ Visit.following r true (c.detach r).1) :
    v.forced = true ∧ Reached S e (.blank v.blank) := by
  obtain ⟨q, hq, hattached, hobject, hne, hforced⟩ := exists_of_mem_following h hv
  have howner := (hattached.owner_eq_or hobject).resolve_right hne
  rw [hforced, howner, beq_self_eq_true, Bool.and_true]
  exact ⟨rfl, hr.of_attachedTo (hkept hq) hattached hobject⟩

/-- After the removal of an entity nothing is attached to it. -/
theorem not_attachedTo_detach (h : c.Consistent) :
    ∀ x ∈ (c.detach r).2.quads.members, ¬ x.AttachedTo r := by
  intro x hx
  rw [members_detach h] at hx
  exact hx.2

/-- Before the first removal nothing is gone. -/
theorem forcing_nil (h : c.Consistent) (e : Entity) : c.Forcing c.quads.members e [] where
  consistent := h
  kept := subset_rfl
  gone _ hq hgone := absurd hq hgone
  forced _ hv := absurd hv List.not_mem_nil
  awaited _ hq hgone := absurd hq hgone

/-- Removing a reached entity takes the cascade a step further. -/
theorem Forcing.detach (h : c.Forcing S e visits) (hr : Reached S e r)
    (hrest : ∀ v ∈ visits, v ∈ rest ∨ Entity.blank v.blank = r) (hsub : ∀ v ∈ rest, v ∈ visits) :
    (c.detach r).2.Forcing S e (Visit.following r true (c.detach r).1 ++ rest) := by
  have hmembers := members_detach h.consistent r
  have hleft : (c.detach r).2.quads.members ⊆ c.quads.members := by
    rw [hmembers]
    exact Set.sdiff_subset
  -- what is gone went with the entity or was gone before
  have hnow : ∀ q, q ∉ (c.detach r).2.quads.members → q ∈ c.quads.members → q.AttachedTo r := by
    intro q hgone hq
    rw [hmembers] at hgone
    exact by_contra fun hfree => hgone ⟨hq, hfree⟩
  refine ⟨h.consistent.detach r, hleft.trans h.kept, ?_, ?_, ?_⟩
  · intro q hq hgone
    by_cases hthere : q ∈ c.quads.members
    · exact ⟨r, hr, hnow q hgone hthere⟩
    · exact h.gone q hq hthere
  · intro v hv
    rcases List.mem_append.mp hv with hnew | hold
    · exact forced_of_mem_following h.consistent h.kept hr hnew
    · exact h.forced v (hsub v hold)
  · intro q hq hgone b hobject
    by_cases heq : Entity.blank b = r
    · exact .inr (heq ▸ not_attachedTo_detach h.consistent)
    by_cases hthere : q ∈ c.quads.members
    · obtain ⟨v, hv, hblank⟩ :=
        exists_mem_following h.consistent true hthere (hnow q hgone hthere) hobject heq
      exact .inl ⟨v, List.mem_append_left _ hv, hblank⟩
    · obtain ⟨v, hv, rfl⟩ | hfree := h.awaited q hq hthere b hobject
      · have hold := (hrest v hv).resolve_right heq
        exact .inl ⟨v, List.mem_append_right _ hold, rfl⟩
      · exact .inr fun x hx => hfree x (hleft hx)

theorem Forcing.visit (h : c.Forcing S e (v :: rest)) :
    (c.detach (.blank v.blank)).2.Forcing S e
      (Visit.following (.blank v.blank) v.forced (c.detach (.blank v.blank)).1 ++ rest) := by
  obtain ⟨hforced, hreached⟩ := h.forced v List.mem_cons_self
  rw [hforced]
  refine h.detach hreached ?_ fun w hw => List.mem_cons_of_mem v hw
  intro w hw
  rcases List.mem_cons.mp hw with rfl | hold
  · exact .inr rfl
  · exact .inl hold

theorem Forcing.pass (h : c.Forcing S e (v :: rest)) (hidle : ¬ c.isDue v = true) :
    c.Forcing S e rest where
  consistent := h.consistent
  kept := h.kept
  gone := h.gone
  forced w hw := h.forced w (List.mem_cons_of_mem v hw)
  awaited q hq hgone b hobject := by
    obtain ⟨w, hw, rfl⟩ | hfree := h.awaited q hq hgone b hobject
    · rcases List.mem_cons.mp hw with rfl | hold
      · have hforced := (h.forced w List.mem_cons_self).1
        exact .inr fun x hx hattached =>
          hidle (h.consistent.isDue_iff_attachedTo.mpr ⟨.inl hforced, x, hx, hattached⟩)
      · exact .inl ⟨w, hold, rfl⟩
    · exact .inr hfree

theorem Forcing.sweep (h : c.Forcing S e visits) : (c.sweep visits).2.Forcing S e [] := by
  fun_induction Contents.sweep c visits with
  | case1 c => exact h
  | case2 c v rest hdue e' removed more final hsweep ih =>
      rw [hsweep] at ih
      exact ih h.visit
  | case3 c v rest hidle ih => exact ih (h.pass hidle)

/-- When no visits remain and the entity itself is gone, nothing is attached to a
reached entity. -/
theorem Forcing.not_attachedTo (h : c.Forcing S e [])
    (hroot : ∀ x ∈ c.quads.members, ¬ x.AttachedTo e) (hr : Reached S e r) :
    ∀ x ∈ c.quads.members, ¬ x.AttachedTo r := by
  induction hr with
  | self => exact hroot
  | @child q b _ hq hobject ih =>
      have hgone : q ∉ c.quads.members := fun hthere => ih q hthere (.inl rfl)
      obtain ⟨v, hv, -⟩ | hfree := h.awaited q hq hgone b hobject
      · cases hv
      · exact hfree

/-- A forced removal leaves the quads that are attached to no reached entity. -/
theorem members_uproot_forced (h : c.Consistent) (e : Entity) :
    (c.uproot e true).2.quads.members = c.quads.members \ Doomed c.quads.members e true := by
  have hdetached : (c.detach e).2.Forcing c.quads.members e
      (Visit.following e true (c.detach e).1 ++ []) :=
    (forcing_nil h e).detach .self (fun _ => .inl) fun _ => id
  have hfinal : (c.uproot e true).2.Forcing c.quads.members e [] := by
    rw [List.append_nil] at hdetached
    exact hdetached.sweep
  have hroot : ∀ x ∈ (c.uproot e true).2.quads.members, ¬ x.AttachedTo e := fun x hx =>
    not_attachedTo_detach h x (members_sweep_subset (h.detach e) _ hx)
  rw [doomed_true]
  ext q
  constructor
  · intro hq
    exact ⟨hfinal.kept hq, fun hgone =>
      hgone.2.elim fun r hr => hfinal.not_attachedTo hroot hr.1 q hq hr.2⟩
  · intro hq
    by_contra hgone
    exact hq.2 ⟨hq.1, hfinal.gone q hq.1 hgone⟩

/-- What a removal takes is the least set that holds what is doomed and leaves no
orphan. -/
theorem isLeast_uproot_takes (h : c.Consistent) (e : Entity) (forced : Bool) :
    IsLeast (Takes c.quads.members (Doomed c.quads.members e forced))
      (c.quads.members \ (c.uproot e forced).2.quads.members) := by
  cases forced with
  | false =>
      rw [doomed_false]
      exact isLeast_uproot h e
  | true =>
      have hdoomed : Doomed c.quads.members e true ⊆ c.quads.members := fun q hq => hq.1
      rw [members_uproot_forced h, Set.sdiff_sdiff_cancel_left hdoomed]
      exact ⟨⟨subset_rfl, hdoomed, leavesNoOrphan_doomed _ e⟩, fun D hD => hD.1⟩

end Contents

/-! ## Deleting by force -/

/-- The sets of entities that hold `e` and, with the owner of a quad of `S`, the blank
object of the quad. -/
def Households (S : Set Quad) (e : Entity) : Set (Set Entity) :=
  {R | e ∈ R ∧ ∀ q ∈ S, q.owner ∈ R → ∀ b, q.object.term = .blank b → Entity.blank b ∈ R}

theorem isLeast_reached (S : Set Quad) (e : Entity) :
    IsLeast (Households S e) {r | Reached S e r} := by
  refine ⟨⟨.self, fun q hq hreached b hobject => .child hreached hq hobject⟩, ?_⟩
  rintro R ⟨hroot, hchild⟩ r hr
  induction hr with
  | self => exact hroot
  | @child q b _ hq hobject ih => exact hchild q hq ih b hobject

/-- A quad is attached to one of the entities if one of them owns it or is blank and
the object of the quad. -/
theorem exists_attachedTo_iff {R : Set Entity} :
    (∃ r ∈ R, q.AttachedTo r) ↔ q.owner ∈ R ∨ ∃ b, Entity.blank b ∈ R ∧ q.object.term = .blank b := by
  constructor
  · rintro ⟨r, hr, rfl | ⟨hblank, hobject⟩⟩
    · exact .inl hr
    · cases r with
      | iri name => cases hblank
      | blank b => exact .inr ⟨b, hr, hobject⟩
  · rintro (hr | ⟨b, hb, hobject⟩)
    · exact ⟨q.owner, hr, .inl rfl⟩
    · exact ⟨.blank b, hb, .inr ⟨rfl, hobject⟩⟩

namespace Session

/-- Deleting an entity by force succeeds in every live session.  Let `R` be the least
set of entities that holds the entity and, with the owner of a quad, its blank object.
What is left are the quads that no member of `R` owns and whose object is no blank
member of `R`.  For an entity with an IRI the policy may remove the references on
top. -/
theorem delete_forced_isLeast {options : Options} {commands : List Command} {s : Session}
    (hs : (start options).run commands = s) (hlive : s.closed = false) (e : Entity)
    {policy : DeletePolicy} (hpolicy : policy.deleteChildren = true) :
    ∃ t R, s.delete e policy = .ok t ∧ IsLeast (Households s.contents.quads.members e) R ∧
      t.contents.quads.members =
        {q ∈ s.contents.quads.members |
          q.owner ∉ R ∧ ∀ b, Entity.blank b ∈ R → q.object.term ≠ .blank b} \
        {q | policy.nullifyReferences = true ∧ e.isBlank = false ∧
          q.object.term = e.toTerm} := by
  have h : s.contents.Consistent := hs ▸ (consistent_run options commands).contents
  have hleft := members_deleted h e policy
  rw [hpolicy, Contents.members_uproot_forced h, doomed_true] at hleft
  refine ⟨_, _, delete_eq_ok.mpr ⟨hlive, rfl⟩, isLeast_reached _ e, ?_⟩
  rw [hleft]
  congr 1
  ext q
  have hattached := exists_attachedTo_iff (q := q)
    (R := {r | Reached s.contents.quads.members e r})
  constructor
  · rintro ⟨hq, hfree⟩
    refine ⟨hq, fun howner => hfree ⟨hq, hattached.mpr (.inl howner)⟩, ?_⟩
    exact fun b hb hobject => hfree ⟨hq, hattached.mpr (.inr ⟨b, hb, hobject⟩)⟩
  · rintro ⟨hq, howner, hobject⟩
    refine ⟨hq, fun hgone => ?_⟩
    rcases hattached.mp hgone.2 with hr | ⟨b, hb, hterm⟩
    · exact howner hr
    · exact hobject b hb hterm

open Sample in
/-- A person lives at an address in a street that refers back to the address.  A friend,
who is not reached, lives in the same street and knows the person. -/
theorem delete_forced_isLeast_person :
    let s := (start {}).run [.load (.iri person) [fact (.iri person) livesAt (.blank address),
        fact (.blank address) livesAt (.blank street), fact (.blank street) knows (.blank address)],
      .load (.iri friend) [fact (.iri friend) livesAt (.blank street),
        fact (.iri friend) knows (.iri person)]]
    let policy : DeletePolicy := ⟨true, true⟩
    s.closed = false ∧ policy.deleteChildren = true ∧
      ∃ t R, s.delete (.iri person) policy = .ok t ∧
        IsLeast (Households s.contents.quads.members (.iri person)) R ∧
        t.contents.quads.members =
          {q ∈ s.contents.quads.members |
            q.owner ∉ R ∧ ∀ b, Entity.blank b ∈ R → q.object.term ≠ .blank b} \
          {q | policy.nullifyReferences = true ∧ (Entity.iri person).isBlank = false ∧
            q.object.term = (Entity.iri person).toTerm} := by
  intro s policy
  have hlive : s.closed = false := by decide
  have hforced : policy.deleteChildren = true := rfl
  exact ⟨hlive, hforced, delete_forced_isLeast rfl hlive (.iri person) hforced⟩

end Session

end QuadSession

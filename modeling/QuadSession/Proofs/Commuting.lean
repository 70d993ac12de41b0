import Mathlib.Data.Set.Lattice
import QuadSession.Proofs.Reach

/-!
# Two deletions

Two deletions may meet in the blank nodes that both lead to.  The first one can cut
paths that the second would have followed, and it can take the last reference to a
blank node that the second would have forced.  This file proves that the order of
two deletions does not matter nevertheless, whatever their policies.

## Strategy

What both deletions take together is described without an order: it is the least
set that holds what either of them dooms and leaves no orphan (`Together`).  The
first deletion takes a part of it, and the second is shown to take the rest
(`sdiff_isLeast_eq_sdiff_together`).

The point is what the first deletion does to the paths of the second.  It may take
a quad to which the second entity leads, but then by force only, since that quad is
no orphan as long as the second entity is there (`forced_of_reached`).  So wherever
it cuts a path of the second deletion, what lies behind is reached by the first one
and gone as well.

## Main statements

* `sdiff_isLeast_eq_sdiff_together`: what two removals leave.
* `Session.delete_comm`: two deletions lead to the same quads and the same counts in
  either order.
-/

namespace QuadSession

variable {S N D D' B : Set Quad} {x y r : Entity} {f g : Bool} {q : Quad}

/-! ## What two removals take together -/

theorem leavesNoOrphan_sInter {F : Set (Set Quad)} (h : ∀ D ∈ F, LeavesNoOrphan S D) :
    LeavesNoOrphan S (⋂₀ F) := by
  rintro b ⟨r, hr, hobject⟩ hrefs q hq howner D hD
  exact h D hD b ⟨r, hr D hD, hobject⟩ (fun r' hr' hobject' => hrefs r' hr' hobject' D hD)
    q hq howner

theorem isLeast_sInter_takes (hB : B ⊆ S) : IsLeast (Takes S B) (⋂₀ Takes S B) := by
  have hall : S ∈ Takes S B := ⟨hB, subset_rfl, fun _ _ _ q hq _ => hq⟩
  refine ⟨⟨?_, ?_, ?_⟩, ?_⟩
  · exact fun q hq D hD => hD.1 hq
  · exact Set.sInter_subset_of_mem hall
  · exact leavesNoOrphan_sInter fun D hD => hD.2.2
  · exact fun D hD => Set.sInter_subset_of_mem hD

theorem doomed_subset : Doomed S x f ⊆ S :=
  fun _ hq => hq.1

/-- What goes if the entities `x` and `y` are both removed. -/
def Together (S : Set Quad) (x : Entity) (f : Bool) (y : Entity) (g : Bool) : Set Quad :=
  ⋂₀ Takes S (Doomed S x f ∪ Doomed S y g)

theorem together_comm : Together S x f y g = Together S y g x f := by
  rw [Together, Together, Set.union_comm]

theorem together_mem_takes :
    Together S x f y g ∈ Takes S (Doomed S x f ∪ Doomed S y g) :=
  (isLeast_sInter_takes (Set.union_subset doomed_subset doomed_subset)).1

/-! ## What the first removal does to the second -/

/-- A blank node that is reached from an entity with an IRI is reached by a quad. -/
theorem Reached.exists_quad {b : Blank} (hy : y.isBlank = false) (hr : Reached S y (.blank b)) :
    ∃ q ∈ S, Reached S y q.owner ∧ q.object.term = .blank b := by
  cases hr with
  | self => cases hy
  | child hreached hq hobject => exact ⟨_, hq, hreached, hobject⟩

/-- An entity with an IRI is reached from no other entity. -/
theorem Reached.eq_of_isBlank (hx : x.isBlank = false) (hr : Reached S y x) : x = y := by
  cases hr with
  | self => rfl
  | child _ _ _ => cases hx

section

variable (hD : IsLeast (Takes S (Doomed S x f)) D) (hx : x.isBlank = false)
  (hy : y.isBlank = false) (hne : x ≠ y)

include hD hx hy hne

/-- A removal that takes a quad to which another entity leads does so by force. -/
theorem forced_of_reached (hq : q ∈ D) (hreached : Reached S y q.owner) :
    f = true ∧ ∃ r, Reached S x r ∧ q.AttachedTo r := by
  -- the quads of `D` that do not contradict the statement could be taken alone
  have hpart : {q ∈ D | Reached S y q.owner → f = true ∧ ∃ r, Reached S x r ∧ q.AttachedTo r} ∈
      Takes S (Doomed S x f) := by
    obtain ⟨⟨hdoomed, hsub, hno⟩, -⟩ := hD
    refine ⟨?_, fun q hq => hsub hq.1, ?_⟩
    · intro q hq
      refine ⟨hdoomed hq, fun hreached => ?_⟩
      obtain ⟨-, r, rfl | ⟨hf, hr⟩, hattached⟩ := hq
      · have howner : q.owner = r := hattached.resolve_right fun hblank =>
          Bool.false_ne_true (hx.symm.trans hblank.1)
        rw [howner] at hreached
        exact absurd (hreached.eq_of_isBlank hx) hne
      · exact ⟨hf, r, hr, hattached⟩
    · rintro b ⟨p, hp, hobject⟩ hrefs q hq howner
      refine ⟨hno b ⟨p, hp.1, hobject⟩ (fun p' hp' h' => (hrefs p' hp' h').1) q hq howner, ?_⟩
      rw [howner]
      intro hreached
      -- the quad that leads to the owner is taken too, and so by force
      obtain ⟨p', hp', hfrom, hobject'⟩ := hreached.exists_quad hy
      obtain ⟨hf, r, hr, hattached⟩ := (hrefs p' hp' hobject').2 hfrom
      exact ⟨hf, .blank b, hr.of_attachedTo hp' hattached hobject', .inl howner⟩
  exact (hD.2 hpart hq).2 hreached

variable (hN : ∀ q ∈ N, ∀ b, q.object.term ≠ .blank b)

include hN

/-- What an entity reached before a removal it still reaches, or the removal reached it
by force. -/
theorem Reached.of_removed (hr : Reached S y r) :
    Reached ((S \ D) \ N) y r ∨ f = true ∧ Reached S x r := by
  induction hr with
  | self => exact .inl .self
  | @child q b hreached hq hobject ih =>
      obtain hstill | ⟨hf, hforced⟩ := ih
      · by_cases hgone : q ∈ D
        · obtain ⟨hf, r, hr, hattached⟩ := forced_of_reached hD hx hy hne hgone hreached
          exact .inr ⟨hf, hr.of_attachedTo hq hattached hobject⟩
        · exact .inl (.child hstill ⟨⟨hq, hgone⟩, fun hn => hN q hn b hobject⟩ hobject)
      · exact .inr ⟨hf, .child hforced hq hobject⟩

/-- What a removal leaves of the quads that another one dooms is still doomed. -/
theorem mem_doomed_of_removed (hq : q ∈ (S \ D) \ N) (hdoomed : q ∈ Doomed S y g) :
    q ∈ Doomed ((S \ D) \ N) y g := by
  obtain ⟨hthere, r, rfl | ⟨hg, hr⟩, hattached⟩ := hdoomed
  · exact ⟨hq, r, .inl rfl, hattached⟩
  · obtain hstill | ⟨hf, hforced⟩ := hr.of_removed hD hx hy hne hN
    · exact ⟨hq, r, .inr ⟨hg, hstill⟩, hattached⟩
    · have hgone : q ∈ D := hD.1.1 ⟨hthere, r, .inr ⟨hf, hforced⟩, hattached⟩
      exact absurd hgone hq.1.2

end

/-! ## What two removals leave -/

section

variable (hN : ∀ q ∈ N, ∀ b, q.object.term ≠ .blank b)
  (hD : IsLeast (Takes S (Doomed S x f)) D)
  (hD' : IsLeast (Takes ((S \ D) \ N) (Doomed ((S \ D) \ N) y g)) D')

include hN hD hD'

/-- One after the other, two removals take no more than both together. -/
theorem union_subset_together : D ∪ D' ⊆ Together S x f y g := by
  obtain ⟨hdoomed, hsub, hno⟩ := together_mem_takes (S := S) (x := x) (f := f) (y := y) (g := g)
  have hfirst : D ⊆ Together S x f y g := hD.2 ⟨Set.subset_union_left.trans hdoomed, hsub, hno⟩
  have hkept : (S \ D) \ N ⊆ S := fun q hq => hq.1.1
  have hrest : Together S x f y g ∩ ((S \ D) \ N) ∈
      Takes ((S \ D) \ N) (Doomed ((S \ D) \ N) y g) := by
    refine ⟨fun q hq => ⟨hdoomed (.inr (Doomed.mono hkept hq)), hq.1⟩, Set.inter_subset_right, ?_⟩
    rintro b ⟨p, hp, hobject⟩ hrefs q hq howner
    refine ⟨hno b ⟨p, hp.1, hobject⟩ (fun p' hp' hobject' => ?_) q (hkept hq) howner, hq⟩
    by_cases hgone : p' ∈ D
    · exact hfirst hgone
    · exact (hrefs p' ⟨⟨hp', hgone⟩, fun hn => hN p' hn b hobject'⟩ hobject').1
  exact Set.union_subset hfirst fun q hq => (hD'.2 hrest hq).1

/-- Together, two removals take nothing that is left by one after the other. -/
theorem together_subset (hx : x.isBlank = false) (hy : y.isBlank = false) (hne : x ≠ y) :
    Together S x f y g ⊆ S \ (((S \ D) \ N) \ D') := by
  obtain ⟨hdoomed', -, hno'⟩ := hD'.1
  refine Set.sInter_subset_of_mem ⟨?_, Set.sdiff_subset, ?_⟩
  · rintro q (hq | hq)
    · exact ⟨hq.1, fun hleft => hleft.1.1.2 (hD.1.1 hq)⟩
    · exact ⟨hq.1, fun hleft =>
        hleft.2 (hdoomed' (mem_doomed_of_removed hD hx hy hne hN hleft.1 hq))⟩
  · rintro b ⟨p, hp, hobject⟩ hrefs q hq howner
    refine ⟨hq, fun hleft => ?_⟩
    have hgone : ∀ r ∈ S, r.object.term = .blank b → r ∉ D' → r ∈ D := by
      intro r hr hobject' hearly
      by_contra hthere
      exact (hrefs r hr hobject').2 ⟨⟨⟨hr, hthere⟩, fun hn => hN r hn b hobject'⟩, hearly⟩
    -- if the second removal takes a reference at all, it takes the last one
    by_cases hlater : ∃ r ∈ D', r.object.term = .blank b
    · refine hleft.2 (hno' b hlater (fun r hr hobject' => ?_) q hleft.1 howner)
      by_contra hearly
      exact hr.1.2 (hgone r hr.1.1 hobject' hearly)
    · have hfirst : ∀ r ∈ S, r.object.term = .blank b → r ∈ D := fun r hr hobject' =>
        hgone r hr hobject' fun hlate => hlater ⟨r, hlate, hobject'⟩
      exact hleft.1.1.2 (hD.1.2.2 b ⟨p, hfirst p hp.1 hobject, hobject⟩ hfirst q hq howner)

/-- What two removals leave, without an order. -/
theorem sdiff_isLeast_eq_sdiff_together (hx : x.isBlank = false) (hy : y.isBlank = false)
    (hne : x ≠ y) : ((S \ D) \ N) \ D' = (S \ Together S x f y g) \ N := by
  have htogether := union_subset_together hN hD hD'
  have hleft := together_subset hN hD hD' hx hy hne
  ext q
  constructor
  · intro hq
    exact ⟨⟨hq.1.1.1, fun hgone => (hleft hgone).2 hq⟩, hq.1.2⟩
  · intro hq
    exact ⟨⟨⟨hq.1.1, fun hgone => hq.1.2 (htogether (.inl hgone))⟩, hq.2⟩,
      fun hgone => hq.1.2 (htogether (.inr hgone))⟩

end

/-! ## Deleting two entities -/

/-- The references that a deletion removes besides the entity. -/
def Nullified (e : Entity) (policy : DeletePolicy) : Set Quad :=
  {q | policy.nullifyReferences = true ∧ e.isBlank = false ∧ q.object.term = e.toTerm}

theorem object_ne_of_nullified {e : Entity} {policy : DeletePolicy} :
    ∀ q ∈ Nullified e policy, ∀ b, q.object.term ≠ .blank b := by
  rintro q ⟨-, hblank, hterm⟩ b hobject
  have heq : e = .blank b := Entity.toTerm_injective (hterm.symm.trans hobject)
  rw [heq] at hblank
  cases hblank

/-- Consistent contents with the same quads count the same references. -/
theorem Contents.Consistent.count_eq_of_members_eq {c d : Contents} (hc : c.Consistent)
    (hd : d.Consistent) (hmembers : c.quads.members = d.quads.members) (b : Blank) :
    c.tally.count b = d.tally.count b := by
  have hcontains : ∀ q, c.quads.primary.contains q = d.quads.primary.contains q := fun q =>
    Bool.eq_iff_iff.mpr (Set.ext_iff.mp hmembers q)
  rw [hc.count_eq, hd.count_eq]
  show referencesTo b c.quads.primary.toList = referencesTo b d.quads.primary.toList
  rw [referencesTo_toList, referencesTo_toList, Quads.statements_eq hcontains]

namespace Session

variable {s : Session} {x y : Entity}

/-- What a deletion takes. -/
theorem exists_isLeast_deleted (h : s.contents.Consistent) (e : Entity) (policy : DeletePolicy) :
    ∃ D, IsLeast (Takes s.contents.quads.members
        (Doomed s.contents.quads.members e policy.deleteChildren)) D ∧
      (s.deleted e policy).contents.quads.members =
        (s.contents.quads.members \ D) \ Nullified e policy := by
  have hkept := Contents.members_uproot_subset h e policy.deleteChildren
  refine ⟨_, Contents.isLeast_uproot_takes h e policy.deleteChildren, ?_⟩
  rw [members_deleted h, Set.sdiff_sdiff_cancel_left hkept]
  rfl

/-- What two deletions leave. -/
theorem members_deleted_deleted (h : s.Consistent) (hx : x.isBlank = false)
    (hy : y.isBlank = false) (hne : x ≠ y) (a b : DeletePolicy) :
    ((s.deleted x a).deleted y b).contents.quads.members =
      ((s.contents.quads.members \
        Together s.contents.quads.members x a.deleteChildren y b.deleteChildren) \
        Nullified x a) \ Nullified y b := by
  obtain ⟨D, hD, hfirst⟩ := exists_isLeast_deleted h.contents x a
  obtain ⟨D', hD', hsecond⟩ := exists_isLeast_deleted (h.deleted x a).contents y b
  rw [hfirst] at hD' hsecond
  rw [hsecond, sdiff_isLeast_eq_sdiff_together object_ne_of_nullified hD hD' hx hy hne]

/-- Deletions of two entities with an IRI succeed in every live session, and in either
order, whatever their policies, they lead to the same quads and the same counts. -/
theorem delete_comm {options : Options} {commands : List Command} {s : Session}
    (hs : (start options).run commands = s) (hlive : s.closed = false) {x y : Iri} (hne : x ≠ y)
    (a b : DeletePolicy) :
    ∃ t u t' u', s.delete (.iri x) a = .ok t ∧ t.delete (.iri y) b = .ok u ∧
      s.delete (.iri y) b = .ok t' ∧ t'.delete (.iri x) a = .ok u' ∧
      u.contents.quads.members = u'.contents.quads.members ∧
      ∀ blank, u.referenceCount (.blank blank) = u'.referenceCount (.blank blank) := by
  have h : s.Consistent := hs ▸ consistent_run options commands
  have hne' : Entity.iri x ≠ .iri y := fun heq => hne (Entity.iri.inj heq)
  have hmembers : ((s.deleted (.iri x) a).deleted (.iri y) b).contents.quads.members =
      ((s.deleted (.iri y) b).deleted (.iri x) a).contents.quads.members := by
    rw [members_deleted_deleted h rfl rfl hne', members_deleted_deleted h rfl rfl hne'.symm,
      together_comm, sdiff_right_comm]
  refine ⟨_, _, _, _, delete_eq_ok.mpr ⟨hlive, rfl⟩, delete_eq_ok.mpr ⟨hlive, rfl⟩,
    delete_eq_ok.mpr ⟨hlive, rfl⟩, delete_eq_ok.mpr ⟨hlive, rfl⟩, hmembers, fun blank => ?_⟩
  have hcount := ((h.deleted (.iri x) a).deleted (.iri y) b).contents.count_eq_of_members_eq
    ((h.deleted (.iri y) b).deleted (.iri x) a).contents hmembers blank
  exact congrArg Except.ok hcount

open Sample in
/-- A person and a friend share an address.  One deletion forces the address to go, and
the other one removes the references to the friend. -/
theorem delete_comm_person :
    let s := (start {}).run [.load (.iri person) [fact (.iri person) livesAt (.blank address)],
      .load (.iri friend) [fact (.iri friend) livesAt (.blank address),
        fact (.blank address) knows (.iri friend)]]
    s.closed = false ∧ person ≠ friend ∧
      ∃ t u t' u', s.delete (.iri person) .children = .ok t ∧
        t.delete (.iri friend) .references = .ok u ∧
        s.delete (.iri friend) .references = .ok t' ∧
        t'.delete (.iri person) .children = .ok u' ∧
        u.contents.quads.members = u'.contents.quads.members ∧
        ∀ blank, u.referenceCount (.blank blank) = u'.referenceCount (.blank blank) := by
  intro s
  have hlive : s.closed = false := by decide
  have hne : person ≠ friend := by decide
  exact ⟨hlive, hne, delete_comm rfl hlive hne .children .references⟩

end Session

end QuadSession

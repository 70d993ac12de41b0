import QuadSession.Proofs.Indexed
import QuadSession.Proofs.Operations

/-!
# Counting references

A session counts the references to blank nodes step by step: adding a quad
counts one up, removing a quad counts one down, a cascade also forgets what it
removed, and only a rollback counts anew.  This file proves that the count of
every blank node is nevertheless, at any time, the number of quads that have it
as their object.

## Strategy

`Contents.Consistent` says that the indices are right and the counts are too.
The indices are part of it because a removal looks its quads up: that nothing
refers to a removed blank node, so that its count may be forgotten, is known only
if the index of objects was right.

The references of a list of removed quads were all counted
(`Contents.Consistent.covers_remove`, `Contents.Consistent.covers_detach`).  So the
count is the old one less the removed references, and references that are taken back
one by one always meet a positive count (`Tally.Covers.pos`).

## Main statements

* `Contents.Consistent.detach` and `Contents.Consistent.sweep`: the cascade keeps
  contents consistent.
* `Session.consistent_run`: so does every history of a session.
-/

namespace QuadSession

/-- The number of quads whose object is the blank node. -/
def referencesTo (b : Blank) (quads : List Quad) : Nat :=
  quads.countP fun q => q.object.term == .blank b

@[simp] theorem referencesTo_nil (b : Blank) : referencesTo b [] = 0 := rfl

theorem referencesTo_cons (b : Blank) (q : Quad) (quads : List Quad) :
    referencesTo b (q :: quads) =
      referencesTo b quads + if q.object.term = .blank b then 1 else 0 := by
  simp [referencesTo, List.countP_cons]

theorem referencesTo_append (b : Blank) (first second : List Quad) :
    referencesTo b (first ++ second) = referencesTo b first + referencesTo b second :=
  List.countP_append

theorem referencesTo_eq_zero {b : Blank} {quads : List Quad}
    (h : ∀ q ∈ quads, q.object.term ≠ .blank b) : referencesTo b quads = 0 := by
  rw [referencesTo, List.countP_eq_zero]
  intro q hq
  rw [beq_iff_eq]
  exact h q hq

/-- References are counted the same by what the quads state. -/
theorem referencesTo_toList (b : Blank) (s : Quads) :
    referencesTo b s.toList = (Quads.statements s).countP fun st => st.object == .blank b := by
  rw [Quads.statements, List.countP_map]
  rfl

/-! ## One step of a tally -/

namespace Tally

theorem count_retain (t : Tally) (q : Quad) (b : Blank) :
    (t.retain q).count b = t.count b + if q.object.term = .blank b then 1 else 0 := by
  simp only [← Term.blank?_eq_some]
  unfold retain
  cases q.object.term.blank? with
  | none => rfl
  | some c =>
      rw [count_increment]
      by_cases hcb : c = b <;> simp [hcb]

theorem count_release (t : Tally) (q : Quad) (b : Blank) :
    (t.release q).count b = t.count b - if q.object.term = .blank b then 1 else 0 := by
  simp only [← Term.blank?_eq_some]
  unfold release
  cases q.object.term.blank? with
  | none => rfl
  | some c =>
      rw [count_decrement]
      by_cases hcb : c = b <;> simp [hcb]

theorem count_retainAll (t : Tally) (quads : List Quad) (b : Blank) :
    (t.retainAll quads).count b = t.count b + referencesTo b quads := by
  induction quads generalizing t with
  | nil => rfl
  | cons q rest ih =>
      have hrest : (t.retainAll (q :: rest)).count b =
          (t.retain q).count b + referencesTo b rest := ih (t.retain q)
      rw [hrest, count_retain, referencesTo_cons]
      omega

theorem count_releaseAll (t : Tally) (quads : List Quad) (b : Blank) :
    (t.releaseAll quads).count b = t.count b - referencesTo b quads := by
  induction quads generalizing t with
  | nil => rfl
  | cons q rest ih =>
      have hrest : (t.releaseAll (q :: rest)).count b =
          (t.release q).count b - referencesTo b rest := ih (t.release q)
      rw [hrest, count_release, referencesTo_cons]
      omega

@[simp] theorem count_empty (b : Blank) : empty.count b = 0 := by
  simp [empty, count]

theorem count_ofQuads (quads : List Quad) (b : Blank) :
    (ofQuads quads).count b = referencesTo b quads := by
  rw [ofQuads, count_retainAll, count_empty, Nat.zero_add]

/-- The references that the quads make are all counted. -/
def Covers (t : Tally) (quads : List Quad) : Prop :=
  ∀ b, referencesTo b quads ≤ t.count b

theorem Covers.pos {t : Tally} {q : Quad} {rest : List Quad} {b : Blank}
    (h : t.Covers (q :: rest)) (hobject : q.object.term = .blank b) : 0 < t.count b := by
  have hb := h b
  rw [referencesTo_cons, if_pos hobject] at hb
  omega

/-- The other references are still counted when that of the first quad was taken back. -/
theorem Covers.release {t : Tally} {q : Quad} {rest : List Quad} (h : t.Covers (q :: rest)) :
    (t.release q).Covers rest := by
  intro b
  have hb := h b
  rw [referencesTo_cons] at hb
  rw [count_release]
  omega

end Tally

/-! ## References in a dataset -/

namespace Dataset

theorem referencesTo_add (d : Dataset) (q : Quad) (b : Blank) :
    referencesTo b (d.add q).2.quads =
      referencesTo b d.quads + if (d.add q).1 ∧ q.object.term = .blank b then 1 else 0 := by
  unfold add
  split
  · rw [if_neg fun hboth => Bool.false_ne_true hboth.1, Nat.add_zero]
  · rename_i habsent
    have hperm := Quads.statements_insert (Bool.eq_false_iff.mpr habsent)
    change referencesTo b (d.primary.insert q).toList = referencesTo b d.primary.toList + _
    rw [referencesTo_toList, hperm.countP_eq, List.countP_cons, referencesTo_toList]
    simp [Quad.statement]

theorem referencesTo_remove (d : Dataset) (q : Quad) (b : Blank) :
    referencesTo b (d.remove q).2.quads +
      (if (d.remove q).1 ∧ q.object.term = .blank b then 1 else 0) = referencesTo b d.quads := by
  unfold remove
  split
  · rename_i hpresent
    have hperm := Quads.statements_erase hpresent
    change referencesTo b (d.primary.erase q).toList + _ = referencesTo b d.primary.toList
    rw [referencesTo_toList, referencesTo_toList, hperm.countP_eq, List.countP_cons]
    simp [Quad.statement]
  · rw [if_neg fun hboth => Bool.false_ne_true hboth.1, Nat.add_zero]

theorem referencesTo_addAll (d : Dataset) (quads : List Quad) (b : Blank) :
    referencesTo b (d.addAll quads).2.quads =
      referencesTo b d.quads + referencesTo b (d.addAll quads).1 := by
  induction quads generalizing d with
  | nil => rfl
  | cons q rest ih =>
      have hfirst := referencesTo_add d q b
      have hrest := ih (d.add q).2
      simp only [addAll]
      split
      · rename_i hnew
        rw [referencesTo_cons]
        simp only [hnew, true_and] at hfirst
        omega
      · rename_i hold
        rw [if_neg fun hboth => hold hboth.1] at hfirst
        omega

theorem referencesTo_removeAll (d : Dataset) (quads : List Quad) (b : Blank) :
    referencesTo b (d.removeAll quads).2.quads + referencesTo b (d.removeAll quads).1 =
      referencesTo b d.quads := by
  induction quads generalizing d with
  | nil => rfl
  | cons q rest ih =>
      have hfirst := referencesTo_remove d q b
      have hrest := ih (d.remove q).2
      simp only [removeAll]
      split
      · rename_i hpresent
        rw [referencesTo_cons]
        simp only [hpresent, true_and] at hfirst
        omega
      · rename_i habsent
        rw [if_neg fun hboth => habsent hboth.1] at hfirst
        omega

end Dataset

/-! ## Consistent contents -/

namespace Contents

/-- The indices are right, and so is the count of every blank node. -/
structure Consistent (c : Contents) : Prop where
  indexed : c.quads.Indexed
  count_eq : ∀ b, c.tally.count b = referencesTo b c.quads.quads

theorem consistent_new (threadSafe : Bool) : (new threadSafe).Consistent where
  indexed := Dataset.indexed_new threadSafe
  count_eq b := Tally.count_empty b

variable {c : Contents}

theorem Consistent.add (h : c.Consistent) (quads : List Quad) : (c.add quads).2.Consistent where
  indexed := h.indexed.addAll quads
  count_eq b := by
    simp only [Contents.add]
    rw [Tally.count_retainAll, h.count_eq, Dataset.referencesTo_addAll]

/-- Removed quads were counted. -/
theorem Consistent.covers_remove (h : c.Consistent) (quads : List Quad) :
    c.tally.Covers (c.remove quads).1 := by
  intro b
  show referencesTo b (c.quads.removeAll quads).1 ≤ c.tally.count b
  have hsplit := c.quads.referencesTo_removeAll quads b
  rw [h.count_eq]
  omega

theorem Consistent.remove (h : c.Consistent) (quads : List Quad) :
    (c.remove quads).2.Consistent where
  indexed := h.indexed.removeAll quads
  count_eq b := by
    have hsplit := c.quads.referencesTo_removeAll quads b
    simp only [Contents.remove]
    rw [Tally.count_releaseAll, h.count_eq]
    omega

end Contents

/-! ## Removing an entity -/

/-- Removing the entity takes the quad along: the entity owns it, or it is blank
and the object of the quad. -/
def Quad.AttachedTo (q : Quad) (e : Entity) : Prop :=
  q.owner = e ∨ e.isBlank = true ∧ q.object.term = e.toTerm

namespace Contents

variable {c : Contents} {e : Entity}

/-- The quads that refer to a blank entity, looked up once its own quads are
gone. -/
def backReferences (c : Contents) (e : Entity) : List Quad :=
  if e.isBlank then (c.quads.removeAll (c.quads.ownedBy e)).2.withObject e.toTerm else []

theorem quads_detach (c : Contents) (e : Entity) : (c.detach e).2.quads =
    ((c.quads.removeAll (c.quads.ownedBy e)).2.removeAll (c.backReferences e)).2 := rfl

theorem fst_detach (c : Contents) (e : Entity) : (c.detach e).1 =
    (c.quads.removeAll (c.quads.ownedBy e)).1 ++
      ((c.quads.removeAll (c.quads.ownedBy e)).2.removeAll (c.backReferences e)).1 := rfl

theorem contains_backReferences (h : c.quads.Indexed) {q : Quad} :
    (c.backReferences e).contains q = true ↔
      (c.quads.contains q = true ∧ q.owner ≠ e) ∧
        e.isBlank = true ∧ q.object.term = e.toTerm := by
  have hrest : (c.quads.removeAll (c.quads.ownedBy e)).2.contains q = true ↔
      c.quads.contains q = true ∧ q.owner ≠ e := by
    rw [Dataset.contains_removeAll, Bool.and_eq_true, Bool.not_eq_true', ← Bool.not_eq_true,
      h.contains_ownedBy, not_and]
    exact and_congr_right fun hq => ⟨fun hne => hne hq, fun hne _ => hne⟩
  unfold backReferences
  split
  · rename_i hblank
    rw [(h.removeAll _).contains_withObject, hrest, and_iff_right hblank]
  · rename_i hblank
    simp [hblank]

/-- What is left when an entity was removed. -/
theorem contains_detach (h : c.quads.Indexed) {q : Quad} :
    (c.detach e).2.quads.contains q = true ↔
      c.quads.contains q = true ∧ ¬ q.AttachedTo e := by
  rw [quads_detach, Dataset.contains_removeAll, Dataset.contains_removeAll, Bool.and_eq_true,
    Bool.and_eq_true, Bool.not_eq_true', Bool.not_eq_true', ← Bool.not_eq_true,
    ← Bool.not_eq_true, h.contains_ownedBy, contains_backReferences h]
  unfold Quad.AttachedTo
  constructor
  · intro hleft
    obtain ⟨⟨hq, howner⟩, hreference⟩ := hleft
    refine ⟨hq, fun hattached => ?_⟩
    rcases hattached with heq | hobject
    · exact howner ⟨hq, heq⟩
    · exact hreference ⟨⟨hq, fun heq => howner ⟨hq, heq⟩⟩, hobject⟩
  · intro hleft
    obtain ⟨hq, hfree⟩ := hleft
    exact ⟨⟨hq, fun hboth => hfree (.inl hboth.2)⟩, fun hboth => hfree (.inr hboth.2)⟩

/-- What went with an entity. -/
theorem contains_detach_fst (h : c.quads.Indexed) {q : Quad} :
    (c.detach e).1.contains q = true ↔ c.quads.contains q = true ∧ q.AttachedTo e := by
  rw [fst_detach, List.contains_append, Dataset.contains_removeAll_fst,
    Dataset.contains_removeAll_fst, Dataset.contains_removeAll, Bool.or_eq_true,
    Bool.and_eq_true, Bool.and_eq_true, Bool.and_eq_true, Bool.not_eq_true', ← Bool.not_eq_true,
    h.contains_ownedBy, contains_backReferences h]
  unfold Quad.AttachedTo
  constructor
  · intro hremoved
    rcases hremoved with ⟨⟨hq, howner⟩, -⟩ | ⟨⟨⟨hq, -⟩, hobject⟩, -⟩
    · exact ⟨hq, .inl howner⟩
    · exact ⟨hq, .inr hobject⟩
  · intro hattached
    obtain ⟨hq, hattached⟩ := hattached
    by_cases howner : q.owner = e
    · exact .inl ⟨⟨hq, howner⟩, hq⟩
    · refine .inr ⟨⟨⟨hq, howner⟩, ?_⟩, hq, fun hboth => howner hboth.2⟩
      exact hattached.resolve_left howner

theorem referencesTo_detach (c : Contents) (e : Entity) (b : Blank) :
    referencesTo b (c.detach e).2.quads.quads + referencesTo b (c.detach e).1 =
      referencesTo b c.quads.quads := by
  have hown := c.quads.referencesTo_removeAll (c.quads.ownedBy e) b
  have hreferences := (c.quads.removeAll (c.quads.ownedBy e)).2.referencesTo_removeAll
    (c.backReferences e) b
  rw [fst_detach, quads_detach, referencesTo_append]
  omega

/-- What goes with an entity was counted, also what refers to the entity itself. -/
theorem Consistent.covers_detach (h : c.Consistent) (e : Entity) :
    c.tally.Covers (c.detach e).1 := by
  intro b
  have hsplit := c.referencesTo_detach e b
  rw [h.count_eq]
  omega

/-- Nothing refers to a blank entity that was removed. -/
theorem referencesTo_detach_self (h : c.quads.Indexed) (b : Blank) :
    referencesTo b (c.detach (.blank b)).2.quads.quads = 0 := by
  refine referencesTo_eq_zero fun q hq hobject => ?_
  have hleft := (contains_detach h).mp (Dataset.contains_of_mem_quads hq)
  exact hleft.2 (.inr ⟨rfl, hobject⟩)

theorem count_detach (c : Contents) (e : Entity) (b : Blank) :
    (c.detach e).2.tally.count b =
      if e = .blank b then 0 else c.tally.count b - referencesTo b (c.detach e).1 := by
  cases e with
  | iri name =>
      rw [if_neg Entity.noConfusion]
      exact Tally.count_releaseAll ..
  | blank id =>
      have hforget : (c.detach (.blank id)).2.tally =
          (c.tally.releaseAll (c.detach (.blank id)).1).forget id := rfl
      rw [hforget, Tally.count_forget, Tally.count_releaseAll]
      simp only [Entity.blank.injEq]

theorem Consistent.detach (h : c.Consistent) (e : Entity) : (c.detach e).2.Consistent where
  indexed := (h.indexed.removeAll _).removeAll _
  count_eq b := by
    have hsplit := c.referencesTo_detach e b
    rw [count_detach]
    split
    · rename_i heq
      rw [heq, referencesTo_detach_self h.indexed]
    · rw [h.count_eq]
      omega

/-! ## The cascade -/

theorem Consistent.sweep (h : c.Consistent) (visits : List Visit) :
    (c.sweep visits).2.Consistent := by
  fun_induction Contents.sweep c visits with
  | case1 c => exact h
  | case2 c v rest hdue e removed more final hsweep ih =>
      rw [hsweep] at ih
      exact ih (h.detach (.blank v.blank))
  | case3 c v rest hdue ih => exact ih h

theorem Consistent.uproot (h : c.Consistent) (e : Entity) (forced : Bool) :
    (c.uproot e forced).2.Consistent :=
  (h.detach e).sweep _

end Contents

/-! ## Sessions -/

theorem Baseline.consistent_restore {b : Baseline} (h : b.quads.Indexed) :
    b.restore.Consistent where
  indexed := h
  count_eq := Tally.count_ofQuads b.quads.quads

namespace Session

/-- The contents are consistent, and a rollback leads to consistent contents. -/
structure Consistent (s : Session) : Prop where
  contents : s.contents.Consistent
  baseline : ∀ b, s.baseline = some b → b.quads.Indexed

theorem consistent_start (options : Options) : (start options).Consistent where
  contents := Contents.consistent_new options.threadSafe
  baseline b hb := by
    unfold start at hb
    split at hb
    · cases hb
      exact Dataset.indexed_new options.threadSafe
    · cases hb

variable {s t : Session}

theorem Consistent.loaded (h : s.Consistent) (e : Entity) (quads : List Quad) :
    (s.loaded e quads).Consistent := by
  unfold Session.loaded
  split
  · exact h
  · refine ⟨⟨(h.contents.add quads).indexed, (h.contents.add quads).count_eq⟩, ?_⟩
    intro b hb
    obtain ⟨old, hold, rfl⟩ := Option.map_eq_some_iff.mp hb
    exact (h.baseline old hold).addAll _

theorem Consistent.replaced (h : s.Consistent) (e : Entity) (predicate : Predicate)
    (values : List Node) (graph : Option Node) (locale : Option Locale) :
    (s.replaced e predicate values graph locale).Consistent where
  contents := ((h.contents.remove _).add _).sweep _
  baseline := h.baseline

/-- The object of a quad that refers to an entity with an IRI is not blank. -/
theorem referencesTo_removeWithObject_iri {d : Dataset} (h : d.Indexed) (name : Iri) (b : Blank) :
    referencesTo b (d.removeWithObject (.iri name)).2.quads = referencesTo b d.quads := by
  have hsplit := d.referencesTo_removeAll (d.withObject (.iri name)) b
  have hnone : referencesTo b (d.removeAll (d.withObject (.iri name))).1 = 0 := by
    refine referencesTo_eq_zero fun q hq hobject => ?_
    have hcontains : (d.removeAll (d.withObject (.iri name))).1.contains q = true :=
      Quads.contains_of_mem hq
    rw [Dataset.contains_removeAll_fst, Bool.and_eq_true, h.contains_withObject, hobject]
      at hcontains
    exact Term.noConfusion hcontains.1.2
  change referencesTo b (d.removeAll (d.withObject (.iri name))).2.quads = _
  omega

theorem Consistent.deleted (h : s.Consistent) (e : Entity) (policy : DeletePolicy) :
    (s.deleted e policy).Consistent := by
  have huproot := h.contents.uproot e policy.deleteChildren
  refine ⟨?_, h.baseline⟩
  simp only [Session.deleted]
  split
  · rename_i hnullify
    cases e with
    | blank id => simp [Entity.isBlank] at hnullify
    | iri name =>
        -- the quads that go now have no blank object
        refine ⟨huproot.indexed.removeWithObject _, fun b => ?_⟩
        rw [huproot.count_eq]
        exact (referencesTo_removeWithObject_iri huproot.indexed name b).symm
  · exact ⟨huproot.indexed, huproot.count_eq⟩

theorem quads_eq_nil_of_holdsData (hdata : s.holdsData = false) : s.quads = [] := by
  rw [holdsData, Bool.or_eq_false_iff, Bool.not_eq_false'] at hdata
  exact isEmpty_iff.mp hdata.1

/-- While a session holds no data, every count is zero. -/
theorem Consistent.count_eq_zero (h : s.Consistent) (hdata : s.holdsData = false) (b : Blank) :
    s.contents.tally.count b = 0 := by
  have hquads : s.contents.quads.quads = [] := quads_eq_nil_of_holdsData hdata
  rw [h.contents.count_eq, hquads, referencesTo_nil]

theorem Consistent.perform (h : s.Consistent) (command : Command)
    (ht : s.perform command = .ok t) : t.Consistent := by
  cases command with
  | load e quads =>
      obtain ⟨-, rfl⟩ := load_eq_ok.mp ht
      exact h.loaded e quads
  | replace e predicate values graph locale =>
      obtain ⟨-, p, -, rfl⟩ := replace_eq_ok.mp ht
      exact h.replaced e p values graph locale
  | delete e policy =>
      obtain ⟨-, rfl⟩ := delete_eq_ok.mp ht
      exact h.deleted e policy
  | reset =>
      obtain ⟨-, rfl⟩ := reset_eq_ok.mp ht
      refine ⟨h.contents, fun b hb => ?_⟩
      obtain ⟨old, -, rfl⟩ := Option.map_eq_some_iff.mp hb
      exact h.contents.indexed
  | rollback =>
      obtain ⟨-, b, hb, rfl⟩ := rollback_eq_ok.mp ht
      exact ⟨Baseline.consistent_restore (h.baseline b hb), h.baseline⟩
  | takeChanges =>
      cases ht
      exact ⟨h.contents, h.baseline⟩
  | setThreadSafe threadSafe =>
      obtain ⟨-, ⟨-, rfl⟩ | ⟨-, hdata, log, -, rfl⟩⟩ := setThreadSafe_eq_ok.mp ht
      · exact h
      · -- the counts are carried over to the new dataset, which they fit by being zero
        refine ⟨⟨Dataset.indexed_new threadSafe, h.count_eq_zero hdata⟩, fun b hb => ?_⟩
        obtain ⟨old, -, rfl⟩ := Option.map_eq_some_iff.mp hb
        exact Dataset.indexed_new threadSafe
  | setTracking tracking =>
      obtain ⟨-, rfl | ⟨-, rfl⟩⟩ := setTracking_eq_ok ht
      · exact h
      · refine ⟨h.contents, fun b hb => ?_⟩
        simp only at hb
        split at hb
        · cases hb
          exact Dataset.indexed_new _
        · cases hb
  | dispose =>
      cases ht
      unfold dispose
      split
      · exact h
      · exact ⟨Contents.consistent_new _, fun b hb => by cases hb⟩

theorem Consistent.step (h : s.Consistent) (command : Command) :
    (s.step command).Consistent := by
  unfold Session.step
  split
  · rename_i next hnext
    exact h.perform command hnext
  · exact h

theorem Consistent.run (h : s.Consistent) (commands : List Command) :
    (s.run commands).Consistent := by
  induction commands generalizing s with
  | nil => exact h
  | cons command rest ih => exact ih (h.step command)

theorem consistent_run (options : Options) (commands : List Command) :
    ((start options).run commands).Consistent :=
  (consistent_start options).run commands

end Session

end QuadSession

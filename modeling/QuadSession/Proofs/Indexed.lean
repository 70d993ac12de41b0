import QuadSession.Dataset.Audit
import QuadSession.Dataset.Command
import QuadSession.Proofs.Listing
import QuadSession.Proofs.Sample
import QuadSession.Proofs.Statements

/-!
# Datasets whose indices are right

A dataset is indexed if its three indices of quads file every member of the
primary set under its own key and nothing else, and its index of objects lists
for every object that is not a literal exactly the owners of quads with that
object.

A new dataset is indexed, and every change keeps it so.  The delicate case is
the removal of a quad: its owner stays listed for its object as long as it owns
another quad with the same object, in whatever predicate and graph.

## Main definitions

* `Multimap.Files`: an index of quads files a set under a key.
* `Dataset.Indexed`: all four indices are right.

## Main statements

* `Dataset.Indexed.add`, `remove`, `removeWithObject`, `setThreadSafe`: every
  change of a dataset keeps it indexed.
* `Dataset.Indexed.contains_ownedBy`, `contains_withObject` and their like: what
  is read from an index is what the primary set holds.
* `Dataset.isSound_iff_files`: what it means that the audit finds nothing.
* `Dataset.indexed_runCopies`: every history of a dataset and its copies keeps
  all of them indexed, and so their audits clean.
-/

namespace QuadSession

/-! ## Indices of quads -/

namespace Multimap

variable {κ : Type} [Ord κ]

/-- The index lists each member of the set under its key and nothing else. -/
def Files (m : Multimap κ Quad) (key : Quad → κ) (s : Quads) : Prop :=
  m.Lists fun k q => s.contains q = true ∧ compare (key q) k = .eq

variable [Std.TransOrd κ] {m : Multimap κ Quad} {key : Quad → κ} {s : Quads}

theorem files_empty : (empty : Multimap κ Quad).Files key ∅ :=
  lists_empty.congr fun k q => by simp

/-- Filing one more quad, provided that equal quads have equal keys. -/
theorem Files.insert (h : m.Files key s)
    (hkey : ∀ a b : Quad, (a == b) = true → compare (key a) (key b) = .eq) (q : Quad) :
    (m.insert (key q) q).Files key (s.insert q) := by
  refine (Lists.insert h (key q) q).congr fun k x => ?_
  rw [Std.TreeSet.contains_insert, Bool.or_eq_true, beq_iff_eq, or_and_right]
  refine or_congr_left ?_
  rw [and_comm]
  refine and_congr_right fun hqx => ?_
  rw [Std.TransCmp.congr_left (hkey q x (Std.LawfulBEqOrd.compare_eq_iff_beq.mp hqx))]

theorem Files.erase (h : m.Files key s)
    (hkey : ∀ a b : Quad, (a == b) = true → compare (key a) (key b) = .eq) (q : Quad) :
    (m.erase (key q) q).Files key (s.erase q) := by
  refine (Lists.erase h (key q) q).congr fun k x => ?_
  rw [Std.TreeSet.contains_erase, Bool.and_eq_true, bne_iff_ne, ← and_assoc]
  refine and_congr_left fun hxk => and_congr_left fun _ => not_congr ?_
  refine and_iff_right_of_imp fun hqx => ?_
  rw [Std.TransCmp.congr_left (hkey q x (Std.LawfulBEqOrd.compare_eq_iff_beq.mp hqx)), hxk]

/-- A set is filed if and only if its quads are found under their keys, and each entry has
quads, all of which belong to the set and have the key of the entry. -/
theorem files_iff_forall_entries
    (hkey : ∀ a b : Quad, (a == b) = true → compare (key a) (key b) = .eq) :
    m.Files key s ↔ (∀ q ∈ s.toList, m.contains (key q) q = true) ∧
      ∀ k entry, (k, entry) ∈ m.entries.toList → entry.isEmpty = false ∧
        ∀ q ∈ entry.toList, s.contains q = true ∧ compare (key q) k = .eq := by
  rw [forall_entries_iff]
  · constructor
    · intro h
      refine ⟨fun q hq => ?_, h.occupied, fun k q => (h.contains_iff k q).mp⟩
      exact (h.contains_iff (key q) q).mpr
        ⟨Quads.contains_of_mem_toList hq, Std.ReflOrd.compare_self⟩
    · rintro ⟨hfound, hoccupied, hlisted⟩
      refine ⟨fun k q => ⟨hlisted k q, fun ⟨hq, hk⟩ => ?_⟩, hoccupied⟩
      obtain ⟨x, hx, hxq⟩ := Quads.contains_iff_exists_mem.mp hq
      have hsame : compare (key x) k = .eq :=
        (Std.TransCmp.congr_left (hkey x q (Quad.beq_iff.mpr hxq))).trans hk
      rw [← contains_congr hsame (Quad.compare_eq_iff.mpr hxq)]
      exact hfound x hx
  · rintro k k' a a' hk ha ⟨hmem, hfiled⟩
    have hsame : (a == a') = true := Std.LawfulBEqOrd.compare_eq_iff_beq.mp ha
    refine ⟨(Quads.contains_congr hsame).trans hmem, ?_⟩
    rw [Std.TransCmp.congr_left (hkey a a' hsame), Std.TransCmp.congr_right hk, hfiled]

end Multimap

namespace Quad

theorem compare_owner_of_beq (a b : Quad) (h : (a == b) = true) :
    compare a.owner b.owner = .eq := by
  rw [owner_eq_of_statement_eq (beq_iff.mp h), Std.ReflOrd.compare_self]

theorem compare_subject_of_beq (a b : Quad) (h : (a == b) = true) :
    compare a.subject b.subject = .eq := by
  have hsubject : a.subject = b.subject := congrArg Statement.subject (beq_iff.mp h)
  rw [hsubject, Std.ReflOrd.compare_self]

theorem compare_slot_of_beq (a b : Quad) (h : (a == b) = true) :
    compare a.slot b.slot = .eq :=
  Slot.compare_eq_iff.mpr ⟨congrArg Statement.subject (beq_iff.mp h),
    congrArg Statement.predicate (beq_iff.mp h)⟩

end Quad

namespace Dataset

/-! ## All four indices -/

/-- The entity owns a quad of the set with the given object, which is not a
literal. -/
def Refers (s : Quads) (object : Term) (e : Entity) : Prop :=
  object.isLiteral = false ∧
    ∃ q, s.contains q = true ∧ q.object.term = object ∧ q.owner = e

/-- Every index lists what the primary set holds, and nothing else. -/
structure Indexed (d : Dataset) : Prop where
  byOwner : d.byOwner.Files Quad.owner d.primary
  bySubject : d.bySubject.Files Quad.subject d.primary
  bySlot : d.bySlot.Files Quad.slot d.primary
  byObject : d.byObject.Lists (Refers d.primary)

theorem indexed_new (threadSafe : Bool) : (new threadSafe).Indexed where
  byOwner := Multimap.files_empty
  bySubject := Multimap.files_empty
  bySlot := Multimap.files_empty
  byObject := Multimap.lists_empty.congr fun object e => by simp [Refers, new]

/-! ## What is read from an index -/

section

variable {d : Dataset} {q : Quad} {e : Entity}

theorem contains_congr {a b : Quad} (h : (a == b) = true) : d.contains a = d.contains b :=
  Quads.contains_congr h

theorem contains_of_mem_quads (hq : q ∈ d.quads) : d.contains q = true :=
  Quads.contains_of_mem_toList hq

theorem contains_quads : d.quads.contains q = d.contains q :=
  Std.TreeSet.contains_toList

theorem Indexed.contains_ownedBy (h : d.Indexed) :
    (d.ownedBy e).contains q = true ↔ d.contains q = true ∧ q.owner = e := by
  rw [ownedBy, h.byOwner.contains_values, Std.LawfulEqOrd.compare_eq_iff_eq]
  rfl

theorem Indexed.contains_atSlot (h : d.Indexed) {slot : Slot} :
    (d.atSlot slot).contains q = true ↔ d.contains q = true ∧ (q.slot == slot) = true := by
  rw [atSlot, h.bySlot.contains_values, Std.LawfulBEqOrd.compare_eq_iff_beq]
  rfl

theorem Indexed.hasOwner_iff (h : d.Indexed) :
    d.hasOwner e = true ↔ ∃ q, d.contains q = true ∧ q.owner = e := by
  rw [hasOwner, h.byOwner.hasKey_iff]
  simp only [Std.LawfulEqOrd.compare_eq_iff_eq]
  rfl

theorem object_beq_congr {object : Term} {a b : Quad} (h : (a == b) = true) :
    (a.object.term == object) = (b.object.term == object) := by
  rw [Quad.object_eq_of_beq h]

theorem Indexed.mem_byObject_values (h : d.Indexed) {object : Term} :
    e ∈ d.byObject.values object ↔ Refers d.primary object e := by
  rw [← h.byObject.contains_values (k := object), List.contains_iff_mem]

/-- Whichever way the question is answered, the referrers of an object are the
owners of the quads with that object. -/
theorem Indexed.mem_referrers (h : d.Indexed) {object : Term} :
    e ∈ d.referrers object ↔
      ∃ q, d.contains q = true ∧ q.object.term = object ∧ q.owner = e := by
  unfold referrers
  split
  · rw [← List.contains_iff_mem, contains_distinct, List.contains_iff_mem, List.mem_map]
    constructor
    · rintro ⟨q, hq, howner⟩
      rw [List.mem_filter, beq_iff_eq] at hq
      exact ⟨q, contains_of_mem_quads hq.1, hq.2, howner⟩
    · rintro ⟨q, hq, hobject, howner⟩
      obtain ⟨x, hx, hqx⟩ := Quads.contains_iff_exists_mem.mp hq
      refine ⟨x, List.mem_filter.mpr ⟨hx, beq_iff_eq.mpr ?_⟩, ?_⟩
      · rw [← hobject]
        exact congrArg Statement.object hqx
      · rw [← howner]
        exact Quad.owner_eq_of_statement_eq hqx
  · rename_i hliteral
    rw [h.mem_byObject_values, Refers, and_iff_right (Bool.eq_false_iff.mpr hliteral)]
    rfl

theorem Indexed.contains_withObject (h : d.Indexed) {object : Term} :
    (d.withObject object).contains q = true ↔
      d.contains q = true ∧ q.object.term = object := by
  unfold withObject
  split
  · rw [Quads.contains_filter_list fun _ _ => object_beq_congr, contains_quads, Bool.and_eq_true,
      beq_iff_eq]
  · rw [List.contains_iff_exists_mem_beq]
    simp only [(perm_sorted _).mem_iff, List.mem_flatMap, List.mem_filter, beq_iff_eq]
    constructor
    · rintro ⟨x, ⟨e, -, hx, hobject⟩, hqx⟩
      obtain ⟨hmem, -⟩ := h.contains_ownedBy.mp (List.contains_iff_exists_mem_beq.mpr
        ⟨x, hx, hqx⟩)
      exact ⟨hmem, (Quad.object_eq_of_beq hqx).trans hobject⟩
    · rintro ⟨hmem, hobject⟩
      obtain ⟨x, hx, hqx⟩ := List.contains_iff_exists_mem_beq.mp
        (h.contains_ownedBy.mpr ⟨hmem, rfl⟩)
      exact ⟨x, ⟨q.owner, h.mem_referrers.mpr ⟨q, hmem, hobject, rfl⟩, hx,
        (Quad.object_eq_of_beq hqx).symm.trans hobject⟩, hqx⟩

end

/-! ## Changes -/

section

variable {d : Dataset} {q : Quad}

theorem refers_insert {s : Quads} {object : Term} {e : Entity} :
    Refers (s.insert q) object e ↔
      (object.isLiteral = false ∧ q.object.term = object ∧ q.owner = e) ∨ Refers s object e := by
  simp only [Refers, Std.TreeSet.contains_insert, Quad.compare_beq_eq, Bool.or_eq_true]
  constructor
  · rintro ⟨hliteral, x, hqx | hx, hobject, howner⟩
    · refine .inl ⟨hliteral, (Quad.object_eq_of_beq hqx).trans hobject, ?_⟩
      exact (Quad.owner_eq_of_statement_eq (Quad.beq_iff.mp hqx)).trans howner
    · exact .inr ⟨hliteral, x, hx, hobject, howner⟩
  · rintro (⟨hliteral, hobject, howner⟩ | ⟨hliteral, x, hx, hobject, howner⟩)
    · exact ⟨hliteral, q, .inl (BEq.refl q), hobject, howner⟩
    · exact ⟨hliteral, x, .inr hx, hobject, howner⟩

theorem Indexed.enter (h : d.Indexed) (q : Quad) : (d.enter q).Indexed where
  byOwner := h.byOwner.insert Quad.compare_owner_of_beq q
  bySubject := h.bySubject.insert Quad.compare_subject_of_beq q
  bySlot := h.bySlot.insert Quad.compare_slot_of_beq q
  byObject := by
    simp only [Dataset.enter]
    split
    · rename_i hliteral
      refine h.byObject.congr fun object e => ?_
      rw [refers_insert, or_iff_right]
      rintro ⟨hobject, rfl, -⟩
      rw [Node.isLiteral, hobject] at hliteral
      exact Bool.false_ne_true hliteral
    · rename_i hliteral
      refine (h.byObject.insert q.object.term q.owner).congr fun object e => ?_
      rw [refers_insert, Std.LawfulEqOrd.compare_eq_iff_eq, Std.LawfulEqOrd.compare_eq_iff_eq]
      refine or_congr_left (and_iff_right_of_imp ?_).symm
      rintro ⟨rfl, -⟩
      exact Bool.eq_false_iff.mpr hliteral

/-- The owner of a removed quad still refers to its object exactly if the index
of owners, without the quad, still holds a quad of the owner with that object. -/
theorem stillRefers_iff {s : Quads} {index : Multimap Entity Quad} (h : index.Files Quad.owner s) :
    index.anyValue q.owner (fun other => other.object == q.object) = true ↔
      ∃ x, s.contains x = true ∧ x.object.term = q.object.term ∧ x.owner = q.owner := by
  rw [Multimap.Lists.anyValue_iff h]
  · simp only [Std.LawfulEqOrd.compare_eq_iff_eq, Node.beq_iff]
    constructor
    · rintro ⟨x, ⟨hx, howner⟩, hobject⟩
      exact ⟨x, hx, hobject, howner⟩
    · rintro ⟨x, hx, hobject, howner⟩
      exact ⟨x, ⟨hx, howner⟩, hobject⟩
  · intro a b hab
    rw [Bool.eq_iff_iff, Node.beq_iff, Node.beq_iff, Quad.object_eq_of_beq hab]

/-- Removing a quad ends at most the reference of its owner to its object. -/
theorem refers_erase_of_ne {s : Quads} {object : Term} {e : Entity}
    (hne : ¬ (q.object.term = object ∧ q.owner = e)) :
    Refers (s.erase q) object e ↔ Refers s object e := by
  simp only [Refers, Std.TreeSet.contains_erase, Quad.compare_bne_eq, Bool.and_eq_true,
    Bool.not_eq_true']
  constructor
  · rintro ⟨hliteral, x, ⟨-, hx⟩, hobject, howner⟩
    exact ⟨hliteral, x, hx, hobject, howner⟩
  · rintro ⟨hliteral, x, hx, hobject, howner⟩
    refine ⟨hliteral, x, ⟨Bool.eq_false_iff.mpr fun hqx => hne ?_, hx⟩, hobject, howner⟩
    exact ⟨(Quad.object_eq_of_beq hqx).trans hobject,
      (Quad.owner_eq_of_statement_eq (Quad.beq_iff.mp hqx)).trans howner⟩

theorem Indexed.withdraw (h : d.Indexed) (hq : d.contains q = true) :
    (d.withdraw q).Indexed where
  byOwner := h.byOwner.erase Quad.compare_owner_of_beq q
  bySubject := h.bySubject.erase Quad.compare_subject_of_beq q
  bySlot := h.bySlot.erase Quad.compare_slot_of_beq q
  byObject := by
    have hstill := stillRefers_iff (q := q) (h.byOwner.erase Quad.compare_owner_of_beq q)
    simp only [Dataset.withdraw]
    split
    · -- nothing is taken from the index: the reference is none, or it goes on
      rename_i hkept
      refine h.byObject.congr fun object e => ?_
      by_cases hne : q.object.term = object ∧ q.owner = e
      · obtain ⟨rfl, rfl⟩ := hne
        rw [Bool.or_eq_true, hstill] at hkept
        refine and_congr_right fun hliteral => ?_
        rcases hkept with hkept | hkept
        · rw [Node.isLiteral, hliteral] at hkept
          exact absurd hkept Bool.false_ne_true
        · exact iff_of_true ⟨q, hq, rfl, rfl⟩ hkept
      · exact (refers_erase_of_ne hne).symm
    · rename_i hdropped
      rw [Bool.or_eq_true, not_or, hstill] at hdropped
      refine (h.byObject.erase q.object.term q.owner).congr fun object e => ?_
      rw [Std.LawfulEqOrd.compare_eq_iff_eq, Std.LawfulEqOrd.compare_eq_iff_eq]
      by_cases hne : q.object.term = object ∧ q.owner = e
      · obtain ⟨rfl, rfl⟩ := hne
        exact iff_of_false (fun hboth => hboth.1 ⟨rfl, rfl⟩) fun hrefers => hdropped.2 hrefers.2
      · rw [and_iff_right hne]
        exact (refers_erase_of_ne hne).symm

theorem Indexed.add (h : d.Indexed) (q : Quad) : (d.add q).2.Indexed := by
  unfold Dataset.add
  split
  · exact h
  · exact h.enter q

theorem Indexed.remove (h : d.Indexed) (q : Quad) : (d.remove q).2.Indexed := by
  unfold Dataset.remove
  split
  · rename_i hq
    exact h.withdraw hq
  · exact h

theorem Indexed.addAll (h : d.Indexed) (quads : List Quad) : (d.addAll quads).2.Indexed := by
  induction quads generalizing d with
  | nil => exact h
  | cons q rest ih => exact ih (h.add q)

theorem Indexed.removeAll (h : d.Indexed) (quads : List Quad) :
    (d.removeAll quads).2.Indexed := by
  induction quads generalizing d with
  | nil => exact h
  | cons q rest ih => exact ih (h.remove q)

theorem Indexed.removeWithObject (h : d.Indexed) (object : Term) :
    (d.removeWithObject object).2.Indexed :=
  h.removeAll (d.withObject object)

theorem Indexed.setThreadSafe (h : d.Indexed) {threadSafe : Bool} {next : Dataset}
    (hnext : d.setThreadSafe threadSafe = .ok next) : next.Indexed := by
  unfold Dataset.setThreadSafe at hnext
  split at hnext
  · cases hnext
    exact h
  · split at hnext
    · cases hnext
    · cases hnext
      exact indexed_new threadSafe

end

/-! ## The audit -/

section

variable {d : Dataset}

theorem blindIndices_eq_nil_iff {q : Quad} : d.blindIndices q = [] ↔
    d.byOwner.contains q.owner q = true ∧ d.bySubject.contains q.subject q = true ∧
      d.bySlot.contains q.slot q = true ∧
      (q.object.isLiteral = false → d.byObject.contains q.object.term q.owner = true) := by
  simp [blindIndices]

theorem checkEntry_eq_nil_iff {index : Index} {belongs : Quad → Bool} {entry : Quads} :
    d.checkEntry index belongs entry = [] ↔
      entry.isEmpty = false ∧ ∀ q ∈ entry.toList, d.contains q = true ∧ belongs q = true := by
  unfold checkEntry
  split
  · rename_i hempty
    simp [hempty]
  · rename_i hoccupied
    simp [hoccupied]

theorem checkReferrers_eq_nil_iff {object : Term} {entry : Std.TreeSet Entity} :
    d.checkReferrers object entry = [] ↔ entry.isEmpty = false ∧
      ∀ e ∈ entry.toList, d.byOwner.anyValue e (fun q => q.object.term == object) = true := by
  unfold checkReferrers
  split
  · rename_i hempty
    simp [hempty]
  · rename_i hoccupied
    simp [hoccupied]

/-- An index of quads files the primary set if and only if it leads to each quad and its
entries pass their checks. -/
theorem files_iff_checkEntry {κ : Type} [Ord κ] [Std.TransOrd κ] {m : Multimap κ Quad}
    {key : Quad → κ}
    (hkey : ∀ a b : Quad, (a == b) = true → compare (key a) (key b) = .eq) (index : Index)
    {belongs : κ → Quad → Bool} (hbelongs : ∀ k q, belongs k q = true ↔ compare (key q) k = .eq) :
    m.Files key d.primary ↔ (∀ q ∈ d.quads, m.contains (key q) q = true) ∧
      ∀ k entry, (k, entry) ∈ m.entries.toList → d.checkEntry index (belongs k) entry = [] := by
  simp only [Multimap.files_iff_forall_entries hkey, checkEntry_eq_nil_iff, hbelongs]
  rfl

/-- The audit finds nothing if and only if the three indices of quads file the primary set,
the owner of each quad is listed for its object unless that is a literal, and the entries
of the index of objects pass their checks. -/
theorem isSound_iff_files : d.isSound = true ↔
    d.byOwner.Files Quad.owner d.primary ∧ d.bySubject.Files Quad.subject d.primary ∧
      d.bySlot.Files Quad.slot d.primary ∧
      (∀ q ∈ d.quads,
        q.object.isLiteral = false → d.byObject.contains q.object.term q.owner = true) ∧
      ∀ object entry, (object, entry) ∈ d.byObject.entries.toList →
        d.checkReferrers object entry = [] := by
  rw [files_iff_checkEntry Quad.compare_owner_of_beq .entity fun _ _ =>
      beq_iff_eq.trans Std.LawfulEqOrd.compare_eq_iff_eq.symm,
    files_iff_checkEntry Quad.compare_subject_of_beq .subject fun _ _ =>
      beq_iff_eq.trans Std.LawfulEqOrd.compare_eq_iff_eq.symm,
    files_iff_checkEntry Quad.compare_slot_of_beq .slot fun _ _ =>
      Std.LawfulBEqOrd.compare_eq_iff_beq.symm]
  simp only [Dataset.isSound, audit, List.isEmpty_iff, List.append_eq_nil_iff,
    List.flatMap_eq_nil_iff, List.map_eq_nil_iff, Prod.forall, blindIndices_eq_nil_iff]
  constructor
  · rintro ⟨⟨⟨⟨hquads, howners⟩, hsubjects⟩, hslots⟩, hobjects⟩
    exact ⟨⟨fun q hq => (hquads q hq).1, howners⟩, ⟨fun q hq => (hquads q hq).2.1, hsubjects⟩,
      ⟨fun q hq => (hquads q hq).2.2.1, hslots⟩, fun q hq => (hquads q hq).2.2.2, hobjects⟩
  · rintro ⟨⟨hbyOwner, howners⟩, ⟨hbySubject, hsubjects⟩, ⟨hbySlot, hslots⟩, hbyObject, hobjects⟩
    exact ⟨⟨⟨⟨fun q hq => ⟨hbyOwner q hq, hbySubject q hq, hbySlot q hq, hbyObject q hq⟩,
      howners⟩, hsubjects⟩, hslots⟩, hobjects⟩

/-- With the index by owner in order, the entries in the index of objects pass their checks
if and only if none is empty and only owners of quads with the object are listed. -/
theorem forall_checkReferrers_iff (h : d.byOwner.Files Quad.owner d.primary) :
    (∀ object entry, (object, entry) ∈ d.byObject.entries.toList →
      d.checkReferrers object entry = []) ↔
      (∀ object entry, d.byObject.lookup? object = some entry → entry.isEmpty = false) ∧
        ∀ object e, d.byObject.contains object e = true →
          ∃ q, d.contains q = true ∧ q.object.term = object ∧ q.owner = e := by
  rw [← Multimap.forall_entries_iff]
  · refine forall₃_congr fun object entry _ => ?_
    rw [checkReferrers_eq_nil_iff]
    refine and_congr_right fun _ => forall₂_congr fun e _ => ?_
    rw [Multimap.Lists.anyValue_iff h fun _ _ => object_beq_congr]
    refine exists_congr fun q => ?_
    rw [Std.LawfulEqOrd.compare_eq_iff_eq, beq_iff_eq, and_assoc, and_comm (a := q.owner = e)]
    rfl
  · intro object object' e e' hobject he howns
    cases Std.LawfulEqOrd.compare_eq_iff_eq.mp hobject
    cases Std.LawfulEqOrd.compare_eq_iff_eq.mp he
    exact howns

theorem Indexed.isSound (h : d.Indexed) : d.isSound = true := by
  refine isSound_iff_files.mpr ⟨h.byOwner, h.bySubject, h.bySlot, fun q hq hliteral => ?_,
    (forall_checkReferrers_iff h.byOwner).mpr ⟨h.byObject.occupied, fun object e hlisted => ?_⟩⟩
  · exact (h.byObject.contains_iff _ _).mpr ⟨hliteral, q, contains_of_mem_quads hq, rfl, rfl⟩
  · exact ((h.byObject.contains_iff object e).mp hlisted).2

end

/-! ## Histories -/

theorem Indexed.step {d : Dataset} (h : d.Indexed) (command : Command) :
    (d.step command).Indexed := by
  cases command with
  | add q => exact h.add q
  | remove q => exact h.remove q
  | removeWithObject object => exact h.removeWithObject object
  | clear => exact indexed_new d.threadSafe
  | setThreadSafe threadSafe =>
      simp only [Dataset.step]
      split
      · rename_i next hnext
        exact h.setThreadSafe hnext
      · exact h

theorem indexed_stepCopies {copies : List Dataset} (h : ∀ d ∈ copies, d.Indexed)
    (command : CopyCommand) : ∀ d ∈ stepCopies copies command, d.Indexed := by
  intro d hd
  cases command with
  | change index command =>
      obtain ⟨i, hi⟩ := List.mem_iff_getElem?.mp hd
      rw [stepCopies, List.getElem?_modify] at hi
      obtain ⟨old, hold, rfl⟩ := Option.map_eq_some_iff.mp hi
      have hindexed := h old (List.mem_of_getElem? hold)
      split
      · exact hindexed.step command
      · exact hindexed
  | copy index =>
      rcases List.mem_append.mp hd with hd | hd
      · exact h d hd
      · exact h d (List.mem_of_getElem? (Option.mem_toList.mp hd))

theorem indexed_runCopies_of_indexed {copies : List Dataset} (h : ∀ d ∈ copies, d.Indexed)
    (commands : List CopyCommand) : ∀ d ∈ runCopies copies commands, d.Indexed := by
  induction commands generalizing copies with
  | nil => exact h
  | cons command rest ih => exact ih (indexed_stepCopies h command)

/-- Whatever is done to a new dataset and to its copies, the audit of each of
them finds nothing, and each index lists exactly what the primary set holds. -/
theorem indexed_runCopies (threadSafe : Bool) (commands : List CopyCommand) :
    ∀ d ∈ runCopies [new threadSafe] commands, d.isSound = true ∧ d.Indexed := by
  intro d hd
  have hnew : ∀ d ∈ [new threadSafe], d.Indexed := by
    intro d hd
    rw [List.mem_singleton.mp hd]
    exact indexed_new threadSafe
  have hindexed := indexed_runCopies_of_indexed hnew commands d hd
  exact ⟨hindexed.isSound, hindexed⟩

open Sample in
/-- Two quads of a person have the same object.  A copy is made, and one of the
quads is removed from it. -/
theorem indexed_runCopies_person :
    ∃ d ∈ runCopies [new false]
        [.change 0 (.add (fact (.iri person) knows (.blank address))),
          .change 0 (.add (fact (.iri person) livesAt (.blank address))),
          .copy 0,
          .change 1 (.remove (fact (.iri person) knows (.blank address)))],
      d.size = 1 ∧ d.isSound = true ∧ d.Indexed := by
  refine ⟨_, List.getElem_mem (n := 1) (by decide), by decide, ?_⟩
  exact indexed_runCopies false _ _ (List.getElem_mem _)

end Dataset

end QuadSession

import Mathlib.Data.Set.Card
import QuadSession.Proofs.Copies

/-!
# Datasets as plain sets of quads

A dataset answers its questions from four indices and from scans of its primary
set, and to remove the quads with a given object it reads two indices and then
changes both.  From outside none of this shows: a dataset behaves as a plain set of
quads does, in which there are no indices and no modes.

## Strategy

`Command.onSet` says what each command does to a plain set.  A dataset represents
such a set if its indices are right, hold the same copies as the primary set, and
list the members of the plain set (`Dataset.Represents`).  Every command takes a
dataset and the set it represents to a dataset and the set it represents.  What a
dataset then answers is read off the plain set, whichever index it was taken from.

The mode of a dataset may be switched only if no quad was ever added, and then the
plain set is empty too.  So a switch leaves the plain set alone whether it succeeds
or is refused.

## Main definitions

* `Command.onSet` and `plainRun`: plain sets under the commands.
* `Dataset.Answers`: what a dataset answers that stands for a plain set.

## Main statements

* `Dataset.Represents.step`: each command keeps a dataset and its plain set together.
* `Dataset.answers_run`: after every run a dataset answers as the plain set does.
-/

namespace QuadSession

/-! ## Lists of the members of a set -/

/-- The list is strictly ascending and lists the members of the set. -/
structure Enumerates {α : Type} [Ord α] (items : List α) (s : Set α) : Prop where
  ascending : items.Pairwise fun a b => compare a b = .lt
  mem_iff : ∀ a, a ∈ items ↔ a ∈ s

section

variable {α : Type} [Ord α] {items : List α} {s : Set α}

theorem Enumerates.filter (h : Enumerates items s) {test : α → Bool} {p : α → Prop}
    (htest : ∀ a, test a = true ↔ p a) : Enumerates (items.filter test) {a ∈ s | p a} where
  ascending := h.ascending.filter test
  mem_iff a := by
    rw [List.mem_filter, h.mem_iff, htest]
    rfl

variable [Std.TransOrd α]

theorem nodup_of_ascending (h : items.Pairwise fun a b => compare a b = .lt) : items.Nodup := by
  refine h.imp fun {a b} hlt heq => ?_
  rw [heq, Std.ReflOrd.compare_self] at hlt
  exact Ordering.noConfusion hlt

/-- Sorting a list without repeats, of items that do not only compare as equal. -/
theorem ascending_sorted (hnodup : items.Nodup)
    (heq : ∀ a ∈ items, ∀ b ∈ items, compare a b = .eq → a = b) :
    (sorted items).Pairwise fun a b => compare a b = .lt := by
  have hperm := perm_sorted items
  have hboth := (pairwise_sorted items).and (hperm.nodup_iff.mpr hnodup)
  refine hboth.imp_of_mem fun {a b} ha hb hab => ?_
  obtain ⟨hle, hne⟩ := hab
  cases hcompare : compare a b with
  | lt => rfl
  | eq => exact absurd (heq a (hperm.mem_iff.mp ha) b (hperm.mem_iff.mp hb) hcompare) hne
  | gt =>
      rw [hcompare] at hle
      exact Bool.noConfusion hle

theorem Enumerates.ncard_eq (h : Enumerates items s) : s.ncard = items.length := by
  classical
  have hset : s = (items.toFinset : Set α) := by
    ext a
    rw [Finset.mem_coe, List.mem_toFinset, h.mem_iff]
  rw [hset, Set.ncard_coe_finset, List.toFinset_card_of_nodup (nodup_of_ascending h.ascending)]

end

namespace Dataset

/-! ## Plain sets -/

/-- What a command does to a plain set of quads, in which no two quads state the
same. -/
def Command.onSet (P : Set Quad) : Command → Set Quad
  | .add q => {x | x ∈ P ∨ x = q ∧ ∀ y ∈ P, (y == q) = false}
  | .remove q => {x ∈ P | (x == q) = false}
  | .removeWithObject object => {x ∈ P | x.object.term ≠ object}
  | .clear => ∅
  | .setThreadSafe _ => P

/-- The plain set after a list of commands, starting from the empty set. -/
def plainRun (commands : List Command) : Set Quad :=
  commands.foldl (fun P command => command.onSet P) ∅

section

variable {P : Set Quad} {q : Quad}

theorem onSet_add_ne_iff : (Command.add q).onSet P ≠ P ↔ ∀ y ∈ P, (y == q) = false := by
  constructor
  · intro hchanged y hy
    by_contra hsame
    refine hchanged (Set.ext fun x => or_iff_left fun hnew => hsame ?_)
    exact hnew.2 y hy
  · intro hnew hsame
    have hin : q ∈ (Command.add q).onSet P := .inr ⟨rfl, hnew⟩
    rw [hsame] at hin
    exact Bool.false_ne_true ((hnew q hin).symm.trans (BEq.refl q))

theorem onSet_remove_ne_iff : (Command.remove q).onSet P ≠ P ↔ ∃ y ∈ P, (y == q) = true := by
  constructor
  · intro hchanged
    by_contra hnone
    refine hchanged (Set.ext fun x => and_iff_left_of_imp fun hx => ?_)
    exact Bool.eq_false_iff.mpr fun hsame => hnone ⟨x, hx, hsame⟩
  · rintro ⟨y, hy, hyq⟩ hsame
    rw [← hsame] at hy
    exact Bool.false_ne_true (hy.2.symm.trans hyq)

end

/-! ## Answers -/

/-- The dataset answers every question as the plain set does: what an operation
returns says how it changes the set, and a list lists the members in question, each
once and in order. -/
structure Answers (d : Dataset) (P : Set Quad) : Prop where
  add_iff : ∀ q, (d.add q).1 = true ↔ (Command.add q).onSet P ≠ P
  remove_iff : ∀ q, (d.remove q).1 = true ↔ (Command.remove q).onSet P ≠ P
  removeWithObject : ∀ object, Enumerates (d.removeWithObject object).1
    (P \ (Command.removeWithObject object).onSet P)
  size_eq : d.size = P.ncard
  contains_iff : ∀ q, d.contains q = true ↔ ∃ x ∈ P, (x == q) = true
  hasOwner_iff : ∀ e, d.hasOwner e = true ↔ ∃ x ∈ P, x.owner = e
  quads : Enumerates d.quads P
  inGraph : ∀ graph, Enumerates (d.inGraph graph) {x ∈ P | x.graphTerm = graph}
  ownedBy : ∀ e, Enumerates (d.ownedBy e) {x ∈ P | x.owner = e}
  withSubject : ∀ subject, Enumerates (d.withSubject subject) {x ∈ P | x.subject = subject}
  atSlot : ∀ slot, Enumerates (d.atSlot slot)
    {x ∈ P | x.subject = slot.subject ∧ x.predicate.term = slot.predicate.term}
  referrers : ∀ object, Enumerates (d.referrers object)
    {e | ∃ x ∈ P, x.object.term = object ∧ x.owner = e}
  owners : Enumerates d.owners {e | ∃ x ∈ P, x.owner = e}

/-- The indices of the dataset are right, and it holds exactly the quads of the
plain set. -/
structure Represents (d : Dataset) (P : Set Quad) : Prop where
  indexed : d.Indexed
  sharesCopies : d.SharesCopies
  mem_quads : ∀ q, q ∈ d.quads ↔ q ∈ P
  eq_empty : d.used = false → P = ∅

variable {d : Dataset} {P : Set Quad}

namespace Represents

theorem quads (h : d.Represents P) : Enumerates d.quads P :=
  ⟨Std.TreeSet.ordered_toList, h.mem_quads⟩

theorem contains_iff (h : d.Represents P) (q : Quad) :
    d.contains q = true ↔ ∃ x ∈ P, (x == q) = true := by
  rw [← contains_quads, List.contains_iff_exists_mem_beq]
  simp only [h.mem_quads, BEq.comm (a := q)]

theorem contains_eq_false_iff (h : d.Represents P) (q : Quad) :
    d.contains q = false ↔ ∀ x ∈ P, (x == q) = false := by
  rw [← Bool.not_eq_true, h.contains_iff]
  simp only [not_exists, not_and, Bool.not_eq_true]

theorem contains_of_mem (h : d.Represents P) {q : Quad} (hq : q ∈ P) : d.contains q = true :=
  (h.contains_iff q).mpr ⟨q, hq, BEq.refl q⟩

/-- A property of quads that does not depend on the copy is met in the dataset where
it is met in the plain set. -/
theorem exists_iff (h : d.Represents P) {p : Quad → Prop}
    (hp : ∀ a b : Quad, (a == b) = true → (p a ↔ p b)) :
    (∃ q, d.contains q = true ∧ p q) ↔ ∃ x ∈ P, p x := by
  constructor
  · rintro ⟨q, hq, hpq⟩
    obtain ⟨x, hx, hxq⟩ := (h.contains_iff q).mp hq
    exact ⟨x, hx, (hp x q hxq).mpr hpq⟩
  · rintro ⟨x, hx, hpx⟩
    exact ⟨x, h.contains_of_mem hx, hpx⟩

/-! ### What is read from an index -/

/-- The values of a key are the members of the plain set that are filed under it. -/
theorem enumerates_values {κ : Type} [Ord κ] (h : d.Represents P) {m : Multimap κ Quad}
    {key : Quad → κ} (hfiles : m.Files key d.primary) (hdrawn : m.DrawnFrom d.primary) {k : κ}
    {p : Quad → Prop} (hp : ∀ q, compare (key q) k = .eq ↔ p q) :
    Enumerates (m.values k) {x ∈ P | p x} where
  ascending := m.pairwise_values k
  mem_iff q := by
    rw [hfiles.mem_values_iff hdrawn, hp]
    exact and_congr_left fun _ => h.mem_quads q

theorem ownedBy (h : d.Represents P) (e : Entity) :
    Enumerates (d.ownedBy e) {x ∈ P | x.owner = e} :=
  h.enumerates_values h.indexed.byOwner h.sharesCopies.byOwner
    fun _ => Std.LawfulEqOrd.compare_eq_iff_eq

theorem hasOwner_iff (h : d.Represents P) (e : Entity) :
    d.hasOwner e = true ↔ ∃ x ∈ P, x.owner = e := by
  rw [h.indexed.hasOwner_iff]
  refine h.exists_iff fun a b hab => ?_
  rw [Quad.owner_eq_of_statement_eq (Quad.beq_iff.mp hab)]

theorem owners (h : d.Represents P) : Enumerates d.owners {e | ∃ x ∈ P, x.owner = e} where
  ascending := Std.TreeMap.ordered_keys
  mem_iff e := by
    rw [Dataset.owners, Multimap.keys, Std.TreeMap.mem_keys, Std.TreeMap.mem_iff_contains]
    exact h.hasOwner_iff e

theorem referrers (h : d.Represents P) (object : Term) : Enumerates (d.referrers object)
    {e | ∃ x ∈ P, x.object.term = object ∧ x.owner = e} where
  ascending := by
    unfold Dataset.referrers
    split
    · exact pairwise_distinct _
    · exact d.byObject.pairwise_values object
  mem_iff e := by
    rw [h.indexed.mem_referrers]
    refine h.exists_iff fun a b hab => ?_
    rw [Quad.object_eq_of_beq hab, Quad.owner_eq_of_statement_eq (Quad.beq_iff.mp hab)]

/-- The quads with an object are found owner by owner, so none is found twice. -/
theorem nodup_ofReferrers (h : d.Represents P) (object : Term) :
    ((d.referrers object).flatMap fun e =>
      (d.ownedBy e).filter fun q => q.object.term == object).Nodup := by
  rw [List.nodup_flatMap]
  constructor
  · intro e _
    exact (nodup_of_ascending (h.ownedBy e).ascending).filter _
  · refine (nodup_of_ascending (h.referrers object).ascending).imp fun {e e'} hne => ?_
    intro q hq hq'
    have howner := ((h.ownedBy e).mem_iff q).mp (List.mem_of_mem_filter hq)
    have howner' := ((h.ownedBy e').mem_iff q).mp (List.mem_of_mem_filter hq')
    exact hne (howner.2.symm.trans howner'.2)

theorem mem_ofReferrers (h : d.Represents P) {object : Term} {q : Quad} :
    (q ∈ (d.referrers object).flatMap fun e =>
      (d.ownedBy e).filter fun q => q.object.term == object) ↔
      q ∈ P ∧ q.object.term = object := by
  simp only [List.mem_flatMap, List.mem_filter, beq_iff_eq]
  constructor
  · rintro ⟨e, -, hq, hobject⟩
    exact ⟨(((h.ownedBy e).mem_iff q).mp hq).1, hobject⟩
  · rintro ⟨hq, hobject⟩
    exact ⟨q.owner, ((h.referrers object).mem_iff q.owner).mpr ⟨q, hq, hobject, rfl⟩,
      ((h.ownedBy q.owner).mem_iff q).mpr ⟨hq, rfl⟩, hobject⟩

theorem withObject (h : d.Represents P) (object : Term) :
    Enumerates (d.withObject object) {x ∈ P | x.object.term = object} := by
  unfold Dataset.withObject
  split
  · exact h.quads.filter fun _ => beq_iff_eq
  · refine ⟨ascending_sorted (h.nodup_ofReferrers object) fun a ha b hb hab => ?_, fun q => ?_⟩
    · have hin := (h.mem_quads a).mpr (h.mem_ofReferrers.mp ha).1
      exact eq_of_mem_toList hin ((h.mem_quads b).mpr (h.mem_ofReferrers.mp hb).1) hab
    · rw [(perm_sorted _).mem_iff]
      exact h.mem_ofReferrers

theorem answers (h : d.Represents P) : d.Answers P where
  add_iff q := by
    rw [fst_add, Bool.not_eq_true', h.contains_eq_false_iff, onSet_add_ne_iff]
  remove_iff q := by
    rw [fst_remove, h.contains_iff, onSet_remove_ne_iff]
  removeWithObject object := by
    have hdiff : P \ (Command.removeWithObject object).onSet P =
        {x ∈ P | x.object.term = object} := by
      ext x
      refine and_congr_right fun hx => ?_
      change ¬ (x ∈ P ∧ x.object.term ≠ object) ↔ _
      rw [not_and_not_right]
      exact ⟨fun hgone => hgone hx, fun hobject _ => hobject⟩
    rw [hdiff]
    exact h.withObject object
  size_eq := Std.TreeSet.length_toList.symm.trans h.quads.ncard_eq.symm
  contains_iff := h.contains_iff
  hasOwner_iff := h.hasOwner_iff
  quads := h.quads
  inGraph graph := h.quads.filter fun _ => beq_iff_eq
  ownedBy := h.ownedBy
  withSubject subject :=
    h.enumerates_values h.indexed.bySubject h.sharesCopies.bySubject
      fun _ => Std.LawfulEqOrd.compare_eq_iff_eq
  atSlot slot :=
    h.enumerates_values h.indexed.bySlot h.sharesCopies.bySlot fun _ => Slot.compare_eq_iff
  referrers := h.referrers
  owners := h.owners

end Represents

/-! ## Runs -/

theorem represents_new (threadSafe : Bool) : (new threadSafe).Represents ∅ where
  indexed := indexed_new threadSafe
  sharesCopies := sharesCopies_new threadSafe
  mem_quads q := by
    rw [Dataset.quads, mem_toList_iff]
    simp [new]
  eq_empty _ := rfl

namespace Represents

theorem add (h : d.Represents P) (q : Quad) :
    (d.add q).2.Represents ((Command.add q).onSet P) where
  indexed := h.indexed.add q
  sharesCopies := h.sharesCopies.add q
  mem_quads x := by
    rw [mem_quads_add, h.mem_quads, h.contains_eq_false_iff]
    rfl
  eq_empty hunused := by
    -- a dataset that was never used holds nothing that could be added again
    unfold Dataset.add at hunused
    split at hunused
    · rename_i hthere
      obtain ⟨x, hx, -⟩ := (h.contains_iff q).mp hthere
      rw [h.eq_empty hunused] at hx
      exact absurd hx (Set.notMem_empty x)
    · exact Bool.noConfusion hunused

theorem used_remove (d : Dataset) (q : Quad) : (d.remove q).2.used = d.used := by
  unfold Dataset.remove
  split <;> rfl

theorem used_removeAll (d : Dataset) (quads : List Quad) :
    (d.removeAll quads).2.used = d.used := by
  induction quads generalizing d with
  | nil => rfl
  | cons q rest ih => exact (ih _).trans (used_remove d q)

theorem remove (h : d.Represents P) (q : Quad) :
    (d.remove q).2.Represents ((Command.remove q).onSet P) where
  indexed := h.indexed.remove q
  sharesCopies := h.sharesCopies.remove h.indexed q
  mem_quads x := by
    rw [mem_quads_remove, h.mem_quads]
    rfl
  eq_empty hunused := by
    rw [used_remove] at hunused
    rw [h.eq_empty hunused]
    exact Set.sep_empty _

theorem removeWithObject (h : d.Represents P) (object : Term) :
    (d.removeWithObject object).2.Represents ((Command.removeWithObject object).onSet P) where
  indexed := h.indexed.removeWithObject object
  sharesCopies := h.sharesCopies.removeAll h.indexed _
  mem_quads x := by
    change x ∈ (d.removeAll (d.withObject object)).2.quads ↔ _
    rw [mem_quads_removeAll, ← Bool.not_eq_true, h.indexed.contains_withObject, h.mem_quads]
    exact and_congr_right fun hx => not_congr (and_iff_right (h.contains_of_mem hx))
  eq_empty hunused := by
    have hunused' : d.used = false := (used_removeAll d _).symm.trans hunused
    rw [h.eq_empty hunused']
    exact Set.sep_empty _

theorem step (h : d.Represents P) (command : Command) :
    (d.step command).Represents (command.onSet P) := by
  cases command with
  | add q => exact h.add q
  | remove q => exact h.remove q
  | removeWithObject object => exact h.removeWithObject object
  | clear => exact represents_new d.threadSafe
  | setThreadSafe threadSafe =>
      simp only [Dataset.step, Dataset.setThreadSafe]
      by_cases hmode : d.threadSafe = threadSafe
      · rw [if_pos hmode]
        exact h
      · rw [if_neg hmode]
        cases hused : d.used with
        | true => exact h
        | false =>
            -- nothing is lost with the new dataset, as nothing was there
            change (new threadSafe).Represents P
            rw [h.eq_empty hused]
            exact represents_new threadSafe

theorem run (h : d.Represents P) (commands : List Command) :
    (d.run commands).Represents (commands.foldl (fun P command => command.onSet P) P) := by
  induction commands generalizing d P with
  | nil => exact h
  | cons command rest ih => exact ih (h.step command)

end Represents

/-- Whatever is done to a new dataset in either mode, it answers every question as
the plain set does to which the same has been done. -/
theorem answers_run (threadSafe : Bool) (commands : List Command) :
    ((new threadSafe).run commands).Answers (plainRun commands) :=
  ((represents_new threadSafe).run commands).answers

end Dataset

end QuadSession

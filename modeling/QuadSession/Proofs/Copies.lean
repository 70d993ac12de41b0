import QuadSession.Proofs.Indexed

/-!
# One copy of every quad

Quads that state the same may still differ in the origins of their nodes.  A set
keeps the copy that came first, and a dataset hands its quads out from several
places: from the primary set and from the three indices of quads.  This file
proves that all of them hold the same copy, so that it does not matter from which
one an answer is taken.

## Strategy

That a right index lists *some* quad with a given statement is known from
`Multimap.Files`.  What is added here is `Multimap.DrawnFrom`: whatever the index
lists is a listed member of the primary set.  Since this set has one copy of each
statement, both together determine the values of every key exactly
(`Multimap.Files.mem_values_iff`).

## Main statements

* `mem_toList_insert` and `mem_toList_erase`: which copies a set keeps.
* `Dataset.SharesCopies.add` and `Dataset.SharesCopies.remove`: changes of a dataset
  keep one copy of every quad.
* `Dataset.mem_addAll_fst`: of several copies the first one is taken in.
* `Dataset.quads_eq_of_subset`: when two datasets list the same copies.
-/

namespace QuadSession

/-! ## The copies that a set keeps -/

section

variable {α : Type} [Ord α] [Std.TransOrd α] {s : Std.TreeSet α} {a b : α}

/-- A set lists an item if it is the copy that looking it up leads to. -/
theorem mem_toList_iff : a ∈ s.toList ↔ s.get? a = some a := by
  have hlisted : a ∈ s.toList ↔ ∃ u, (a, u) ∈ s.inner.toList := by
    rw [Std.TreeSet.toList, ← Std.TreeMap.map_fst_toList_eq_keys, List.mem_map]
    constructor
    · rintro ⟨⟨x, u⟩, hx, rfl⟩
      exact ⟨u, hx⟩
    · rintro ⟨u, hx⟩
      exact ⟨(a, u), hx, rfl⟩
  simp only [hlisted, Std.TreeMap.mem_toList_iff_getKey?_eq_some_and_getElem?_eq_some]
  constructor
  · rintro ⟨-, hkey, -⟩
    exact hkey
  · intro hkey
    have hmem : a ∈ s.inner := Std.TreeMap.mem_of_getKey?_eq_some hkey
    exact ⟨s.inner[a], hkey, Std.TreeMap.getElem?_eq_some_getElem hmem⟩

/-- A set has one copy of equal items. -/
theorem eq_of_mem_toList (ha : a ∈ s.toList) (hb : b ∈ s.toList) (hab : compare a b = .eq) :
    a = b := by
  rw [mem_toList_iff] at ha hb
  have hsame : s.get? a = s.get? b := Std.TreeSet.get?_congr hab
  rw [ha, hb] at hsame
  exact Option.some.inj hsame

/-- Sets that list the same items list them in the same order. -/
theorem toList_eq_of_mem_iff {t : Std.TreeSet α} (h : ∀ x, x ∈ s.toList ↔ x ∈ t.toList) :
    s.toList = t.toList := by
  have hnodup : ∀ s : Std.TreeSet α, s.toList.Nodup := by
    intro s
    refine Std.TreeSet.distinct_toList.imp fun {a b} hne heq => hne ?_
    rw [heq, Std.ReflOrd.compare_self]
  have hperm := (List.perm_ext_iff_of_nodup (hnodup s) (hnodup t)).mpr h
  exact (Std.TreeSet.Equiv.of_toList_perm hperm).toList_eq

/-- An item is taken in unless the set has a copy of it. -/
theorem mem_toList_insert :
    b ∈ (s.insert a).toList ↔ b ∈ s.toList ∨ b = a ∧ s.contains a = false := by
  rw [mem_toList_iff, mem_toList_iff, Std.TreeSet.get?_insert]
  split
  · rename_i hnew
    obtain ⟨hab, habsent⟩ := hnew
    rw [Std.TreeSet.mem_iff_contains, Bool.not_eq_true] at habsent
    constructor
    · intro heq
      exact .inr ⟨(Option.some.inj heq).symm, habsent⟩
    · rintro (hold | ⟨rfl, -⟩)
      · have hin : s.contains b = true := Std.TreeSet.mem_of_get?_eq_some hold
        rw [← Std.TreeSet.contains_congr hab, habsent] at hin
        exact Bool.noConfusion hin
      · rfl
  · rename_i hold
    refine (or_iff_left ?_).symm
    rintro ⟨rfl, habsent⟩
    refine hold ⟨Std.ReflOrd.compare_self, ?_⟩
    rw [Std.TreeSet.mem_iff_contains, habsent]
    exact Bool.false_ne_true

theorem mem_toList_erase : b ∈ (s.erase a).toList ↔ b ∈ s.toList ∧ compare a b ≠ .eq := by
  rw [mem_toList_iff, mem_toList_iff, Std.TreeSet.get?_erase]
  split
  · rename_i hab
    exact iff_of_false (by rintro ⟨⟩) fun hboth => hboth.2 hab
  · rename_i hab
    exact (and_iff_left hab).symm

end

/-! ## The copies that an index lists -/

namespace Multimap

section

variable {κ α : Type} [Ord κ] [Ord α] {m : Multimap κ α} {k k' : κ} {a b : α}

theorem mem_values : a ∈ m.values k ↔ ∃ entry, m.lookup? k = some entry ∧ a ∈ entry.toList := by
  unfold values
  cases m.lookup? k <;> simp

variable [Std.TransOrd α]

theorem pairwise_values (m : Multimap κ α) (k : κ) :
    (m.values k).Pairwise fun a b => compare a b = .lt := by
  unfold values
  cases m.lookup? k with
  | none => exact List.Pairwise.nil
  | some entry => exact Std.TreeSet.ordered_toList

variable [Std.TransOrd κ]

theorem of_mem_values_insert (h : b ∈ (m.insert k a).values k') : b = a ∨ b ∈ m.values k' := by
  obtain ⟨entry, hentry, hb⟩ := mem_values.mp h
  rw [lookup?_insert] at hentry
  split at hentry
  · rename_i hkey
    cases hentry
    rcases mem_toList_insert.mp hb with hold | hnew
    · have hlookup : m.lookup? k = m.lookup? k' := Std.TreeMap.getElem?_congr hkey
      rw [hlookup] at hold
      cases hk : m.lookup? k' with
      | none =>
          rw [hk, Option.getD_none, mem_toList_iff, Std.TreeSet.get?_emptyc] at hold
          cases hold
      | some old =>
          rw [hk, Option.getD_some] at hold
          exact .inr (mem_values.mpr ⟨old, hk, hold⟩)
    · exact .inl hnew.1
  · exact .inr (mem_values.mpr ⟨entry, hentry, hb⟩)

theorem of_mem_values_erase (h : b ∈ (m.erase k a).values k') : b ∈ m.values k' := by
  obtain ⟨entry, hentry, hb⟩ := mem_values.mp h
  rw [lookup?_erase] at hentry
  split at hentry
  · rename_i hkey
    have hlookup : m.lookup? k = m.lookup? k' := Std.TreeMap.getElem?_congr hkey
    obtain ⟨old, hold, hrest⟩ := Option.bind_eq_some_iff.mp hentry
    unfold without at hrest
    split at hrest
    · cases hrest
    · cases hrest
      exact mem_values.mpr ⟨old, hlookup ▸ hold, (mem_toList_erase.mp hb).1⟩
  · exact mem_values.mpr ⟨entry, hentry, hb⟩

end

section

variable {κ : Type} [Ord κ] {m : Multimap κ Quad} {key : Quad → κ} {s : Quads} {k : κ} {q : Quad}

/-- Whatever the index lists is the copy that the set lists. -/
def DrawnFrom (m : Multimap κ Quad) (s : Quads) : Prop :=
  ∀ k, ∀ q ∈ m.values k, q ∈ s.toList

/-- An index that files a set and is drawn from it lists under each key the copies
of the set. -/
theorem Files.mem_values_iff (h : m.Files key s) (hdrawn : m.DrawnFrom s) :
    q ∈ m.values k ↔ q ∈ s.toList ∧ compare (key q) k = .eq := by
  constructor
  · intro hq
    exact ⟨hdrawn k q hq, (Lists.of_mem_values h hq).2⟩
  · rintro ⟨hq, hkey⟩
    obtain ⟨x, hx, hqx⟩ := Lists.exists_mem_values h ⟨Quads.contains_of_mem_toList hq, hkey⟩
    have hsame := eq_of_mem_toList hq (hdrawn k x hx) (Std.LawfulBEqOrd.compare_eq_iff_beq.mpr hqx)
    rwa [hsame]

variable [Std.TransOrd κ]

theorem drawnFrom_empty (s : Quads) : (empty : Multimap κ Quad).DrawnFrom s := by
  intro k q hq
  obtain ⟨entry, hentry, -⟩ := mem_values.mp hq
  simp [lookup?, empty] at hentry

theorem DrawnFrom.insert (h : m.DrawnFrom s) (k : κ) (hq : s.contains q = false) :
    (m.insert k q).DrawnFrom (s.insert q) := by
  intro k' x hx
  rcases of_mem_values_insert hx with rfl | hold
  · exact mem_toList_insert.mpr (.inr ⟨rfl, hq⟩)
  · exact mem_toList_insert.mpr (.inl (h k' x hold))

theorem DrawnFrom.erase (h : m.DrawnFrom s) (k : κ)
    (hfiles : (m.erase k q).Files key (s.erase q)) : (m.erase k q).DrawnFrom (s.erase q) := by
  intro k' x hx
  -- the index has let go of the quad under every key, not only under the one given
  have hleft := (Lists.of_mem_values hfiles hx).1
  rw [Std.TreeSet.contains_erase, Bool.and_eq_true, bne_iff_ne] at hleft
  exact mem_toList_erase.mpr ⟨h k' x (of_mem_values_erase hx), hleft.1⟩

end

end Multimap

/-! ## The copies in a dataset -/

namespace Dataset

/-- The three indices of quads list the copies that the primary set lists. -/
structure SharesCopies (d : Dataset) : Prop where
  byOwner : d.byOwner.DrawnFrom d.primary
  bySubject : d.bySubject.DrawnFrom d.primary
  bySlot : d.bySlot.DrawnFrom d.primary

theorem sharesCopies_new (threadSafe : Bool) : (new threadSafe).SharesCopies where
  byOwner := Multimap.drawnFrom_empty _
  bySubject := Multimap.drawnFrom_empty _
  bySlot := Multimap.drawnFrom_empty _

variable {d : Dataset} {q x : Quad}

theorem SharesCopies.add (h : d.SharesCopies) (q : Quad) : (d.add q).2.SharesCopies := by
  unfold Dataset.add
  split
  · exact h
  · rename_i habsent
    have hnew : d.primary.contains q = false := Bool.eq_false_iff.mpr habsent
    exact ⟨h.byOwner.insert q.owner hnew, h.bySubject.insert q.subject hnew,
      h.bySlot.insert q.slot hnew⟩

theorem SharesCopies.remove (h : d.SharesCopies) (hindexed : d.Indexed) (q : Quad) :
    (d.remove q).2.SharesCopies := by
  unfold Dataset.remove
  split
  · exact ⟨h.byOwner.erase q.owner (hindexed.byOwner.erase Quad.compare_owner_of_beq q),
      h.bySubject.erase q.subject (hindexed.bySubject.erase Quad.compare_subject_of_beq q),
      h.bySlot.erase q.slot (hindexed.bySlot.erase Quad.compare_slot_of_beq q)⟩
  · exact h

theorem SharesCopies.removeAll (h : d.SharesCopies) (hindexed : d.Indexed) (quads : List Quad) :
    (d.removeAll quads).2.SharesCopies := by
  induction quads generalizing d with
  | nil => exact h
  | cons q rest ih => exact ih (h.remove hindexed q) (hindexed.remove q)

/-- Adding a quad takes it in unless the dataset has a copy of it. -/
theorem mem_quads_add :
    x ∈ (d.add q).2.quads ↔ x ∈ d.quads ∨ x = q ∧ d.contains q = false := by
  unfold Dataset.add
  split
  · rename_i hthere
    exact (or_iff_left fun hnew => Bool.false_ne_true (hnew.2.symm.trans hthere)).symm
  · exact mem_toList_insert

theorem mem_quads_remove : x ∈ (d.remove q).2.quads ↔ x ∈ d.quads ∧ (x == q) = false := by
  have hsame : compare q x ≠ .eq ↔ (x == q) = false := by
    rw [Ne, Std.LawfulBEqOrd.compare_eq_iff_beq, BEq.comm, Bool.not_eq_true]
  rw [← hsame]
  unfold Dataset.remove
  split
  · exact mem_toList_erase
  · rename_i habsent
    refine (and_iff_left_of_imp fun hx heq => habsent ?_).symm
    rw [contains_congr (Std.LawfulBEqOrd.compare_eq_iff_beq.mp heq)]
    exact contains_of_mem_quads hx

theorem mem_quads_removeAll (quads : List Quad) :
    x ∈ (d.removeAll quads).2.quads ↔ x ∈ d.quads ∧ quads.contains x = false := by
  induction quads generalizing d with
  | nil => simp [removeAll]
  | cons q rest ih =>
      simp only [removeAll]
      rw [ih, mem_quads_remove, List.contains_cons, Bool.or_eq_false_iff, and_assoc]

/-- Of the copies of a quad that are to be added, the first one is taken in, unless the
dataset has one. -/
theorem mem_addAll_fst {quads : List Quad} :
    x ∈ (d.addAll quads).1 ↔ quads.find? (· == x) = some x ∧ d.contains x = false := by
  induction quads generalizing d with
  | nil => simp [addAll]
  | cons q rest ih =>
      have hlater : x ∈ ((d.add q).2.addAll rest).1 ↔
          rest.find? (· == x) = some x ∧ (q == x || d.contains x) = false := by
        rw [ih, contains_add]
      simp only [addAll, fst_add, List.find?_cons]
      cases h : q == x with
      | true =>
          have hqx : d.contains q = d.contains x := contains_congr h
          cases hx : d.contains x <;> simp [hqx, hx, hlater, h, eq_comm]
      | false =>
          have hne : x ≠ q := fun heq => Bool.false_ne_true (h.symm.trans (heq ▸ BEq.refl x))
          cases d.contains q <;> simp [hlater, h, hne]

theorem mem_quads_addAll (quads : List Quad) :
    x ∈ (d.addAll quads).2.quads ↔ x ∈ d.quads ∨ x ∈ (d.addAll quads).1 := by
  induction quads generalizing d with
  | nil => simp [addAll]
  | cons q rest ih =>
      simp only [addAll, fst_add]
      rw [ih, mem_quads_add]
      cases hq : d.contains q <;> simp [or_assoc]

/-- A dataset lists one copy of every quad. -/
theorem eq_of_mem_quads {y : Quad} (hx : x ∈ d.quads) (hy : y ∈ d.quads) (h : (x == y) = true) :
    x = y :=
  eq_of_mem_toList hx hy (Std.LawfulBEqOrd.compare_eq_iff_beq.mpr h)

/-- Datasets with the same quads list the same copies if one lists only copies of the
other. -/
theorem quads_eq_of_subset {d' : Dataset} (hsub : ∀ x ∈ d.quads, x ∈ d'.quads)
    (hall : ∀ x ∈ d'.quads, d.contains x = true) : d.quads = d'.quads := by
  have hback : ∀ x ∈ d'.quads, x ∈ d.quads := by
    intro x hx
    have hthere := hall x hx
    rw [← contains_quads] at hthere
    obtain ⟨y, hy, hxy⟩ := List.contains_iff_exists_mem_beq.mp hthere
    rwa [eq_of_mem_quads hx (hsub y hy) hxy]
  exact toList_eq_of_mem_iff fun x => ⟨hsub x, hback x⟩

end Dataset

end QuadSession

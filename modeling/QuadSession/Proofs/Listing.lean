import QuadSession.Multimap

/-!
# What a multimap lists

An index is right when it lists a value under a key exactly where a relation
between keys and values says so, and when it has no entries without values.
Both halves are needed: the first one is what a question is answered from, the
second one makes the mere presence of a key an answer.

`Multimap.Lists` is this notion.  It is kept by `insert` and `erase`, which
change the relation at one pair, so an index that starts empty and is changed by
these two operations lists a known relation at any time.
-/

namespace QuadSession.Multimap

variable {κ α : Type} [Ord κ] [Ord α]

/-- The map lists a value under a key where the relation holds and nowhere else,
and no key has an entry without values. -/
structure Lists (m : Multimap κ α) (r : κ → α → Prop) : Prop where
  contains_iff : ∀ k a, m.contains k a = true ↔ r k a
  occupied : ∀ k entry, m.lookup? k = some entry → entry.isEmpty = false

theorem Lists.congr {m : Multimap κ α} {r r' : κ → α → Prop} (h : m.Lists r)
    (hr : ∀ k a, r k a ↔ r' k a) : m.Lists r' where
  contains_iff k a := (h.contains_iff k a).trans (hr k a)
  occupied := h.occupied

theorem contains_iff_exists_entry {m : Multimap κ α} {k : κ} {a : α} :
    m.contains k a = true ↔ ∃ entry, m.lookup? k = some entry ∧ entry.contains a = true := by
  unfold contains
  cases m.lookup? k <;> simp

theorem lists_empty [Std.TransOrd κ] : (empty : Multimap κ α).Lists fun _ _ => False where
  contains_iff k a := by simp [contains, lookup?, empty]
  occupied k entry h := by simp [lookup?, empty] at h

theorem hasKey_eq_isSome [Std.TransOrd κ] {m : Multimap κ α} {k : κ} :
    m.hasKey k = (m.lookup? k).isSome :=
  Std.TreeMap.contains_eq_isSome_getElem?

theorem contains_congr_key [Std.TransOrd κ] {m : Multimap κ α} {k k' : κ} {a : α}
    (h : compare k k' = .eq) : m.contains k a = m.contains k' a := by
  unfold contains lookup?
  rw [Std.TreeMap.getElem?_congr h]

theorem contains_congr [Std.TransOrd κ] [Std.TransOrd α] {m : Multimap κ α} {k k' : κ} {a a' : α}
    (hk : compare k k' = .eq) (ha : compare a a' = .eq) : m.contains k a = m.contains k' a' := by
  rw [contains_congr_key hk, contains, contains]
  cases m.lookup? k' with
  | none => rfl
  | some entry => exact Std.TreeSet.contains_congr ha

theorem isEmpty_of_without_eq_some {entry rest : Std.TreeSet α} {a : α}
    (h : without entry a = some rest) : rest.isEmpty = false := by
  unfold without at h
  split at h
  · cases h
  · rename_i hne
    cases h
    exact Bool.eq_false_iff.mpr hne

variable [Std.TransOrd α]

/-! ## Values of a key -/

theorem Lists.of_mem_values {m : Multimap κ α} {r : κ → α → Prop} (h : m.Lists r) {k : κ} {a : α}
    (ha : a ∈ m.values k) : r k a := by
  rw [← h.contains_iff, contains_iff_exists_entry]
  unfold values at ha
  cases hentry : m.lookup? k with
  | none => simp [hentry] at ha
  | some entry =>
      rw [hentry] at ha
      exact ⟨entry, rfl, Std.TreeSet.mem_of_mem_toList ha⟩

theorem Lists.exists_mem_values [BEq α] [Std.LawfulBEqOrd α] {m : Multimap κ α}
    {r : κ → α → Prop} (h : m.Lists r) {k : κ} {a : α} (ha : r k a) :
    ∃ x ∈ m.values k, (a == x) = true := by
  obtain ⟨entry, hentry, hmem⟩ := contains_iff_exists_entry.mp ((h.contains_iff k a).mpr ha)
  rw [← Std.TreeSet.contains_toList, List.contains_iff_exists_mem_beq] at hmem
  simpa [values, hentry] using hmem

theorem Lists.contains_values [BEq α] [Std.LawfulBEqOrd α] {m : Multimap κ α}
    {r : κ → α → Prop} (h : m.Lists r) {k : κ} {a : α} :
    (m.values k).contains a = true ↔ r k a := by
  rw [← h.contains_iff]
  unfold values contains
  cases m.lookup? k with
  | none => simp
  | some entry => rw [Std.TreeSet.contains_toList, Option.any_some]

/-- A test that does not tell equal values apart is answered from the relation. -/
theorem Lists.anyValue_iff [BEq α] [Std.LawfulBEqOrd α] {m : Multimap κ α} {r : κ → α → Prop}
    (h : m.Lists r) {k : κ} {test : α → Bool}
    (htest : ∀ a b : α, (a == b) = true → test a = test b) :
    m.anyValue k test = true ↔ ∃ a, r k a ∧ test a = true := by
  rw [anyValue, List.any_eq_true]
  constructor
  · rintro ⟨a, ha, hpass⟩
    exact ⟨a, h.of_mem_values ha, hpass⟩
  · rintro ⟨a, ha, hpass⟩
    obtain ⟨x, hx, hax⟩ := h.exists_mem_values ha
    exact ⟨x, hx, htest a x hax ▸ hpass⟩

/-! ## Presence of a key, and changes -/

variable [Std.TransOrd κ]

/-- Going through the entries says what the lookups say: that no entry is empty, and that
listed values are related to their keys.  The relation must not tell equal keys or equal
values apart. -/
theorem forall_entries_iff [BEq α] [Std.LawfulBEqOrd α] {m : Multimap κ α} {r : κ → α → Prop}
    (hr : ∀ k k' a a', compare k k' = .eq → compare a a' = .eq → r k' a' → r k a) :
    (∀ k entry, (k, entry) ∈ m.entries.toList →
      entry.isEmpty = false ∧ ∀ a ∈ entry.toList, r k a) ↔
      (∀ k entry, m.lookup? k = some entry → entry.isEmpty = false) ∧
        ∀ k a, m.contains k a = true → r k a := by
  constructor
  · intro hentries
    have hstored : ∀ k entry, m.lookup? k = some entry →
        ∃ k', compare k k' = .eq ∧ (k', entry) ∈ m.entries.toList := fun k entry =>
      Std.TreeMap.getElem?_eq_some_iff_exists_compare_eq_eq_and_mem_toList.mp
    constructor
    · intro k entry hlookup
      obtain ⟨k', -, hentry⟩ := hstored k entry hlookup
      exact (hentries k' entry hentry).1
    · intro k a hcontains
      obtain ⟨entry, hlookup, hmem⟩ := contains_iff_exists_entry.mp hcontains
      obtain ⟨k', hkey, hentry⟩ := hstored k entry hlookup
      rw [← Std.TreeSet.contains_toList, List.contains_iff_exists_mem_beq] at hmem
      obtain ⟨x, hx, hax⟩ := hmem
      exact hr k k' a x hkey (Std.LawfulBEqOrd.compare_eq_iff_beq.mpr hax)
        ((hentries k' entry hentry).2 x hx)
  · rintro ⟨hoccupied, hlisted⟩ k entry hentry
    have hlookup : m.lookup? k = some entry :=
      (Std.TreeMap.mem_toList_iff_getKey?_eq_some_and_getElem?_eq_some.mp hentry).2
    refine ⟨hoccupied k entry hlookup, fun a ha => hlisted k a ?_⟩
    exact contains_iff_exists_entry.mpr ⟨entry, hlookup, Std.TreeSet.mem_of_mem_toList ha⟩

theorem Lists.hasKey_iff {m : Multimap κ α} {r : κ → α → Prop} (h : m.Lists r) {k : κ} :
    m.hasKey k = true ↔ ∃ a, r k a := by
  rw [hasKey_eq_isSome, Option.isSome_iff_exists]
  constructor
  · rintro ⟨entry, hentry⟩
    obtain ⟨a, ha⟩ := Std.TreeSet.isEmpty_eq_false_iff_exists_contains_eq_true.mp
      (h.occupied k entry hentry)
    exact ⟨a, (h.contains_iff k a).mp (contains_iff_exists_entry.mpr ⟨entry, hentry, ha⟩)⟩
  · rintro ⟨a, ha⟩
    obtain ⟨entry, hentry, -⟩ := contains_iff_exists_entry.mp ((h.contains_iff k a).mpr ha)
    exact ⟨entry, hentry⟩

/-- The keys and what is found under them say whether a relation is listed. -/
theorem lists_iff_hasKey {m : Multimap κ α} {r : κ → α → Prop} :
    m.Lists r ↔
      (∀ k, m.hasKey k = true ↔ ∃ a, r k a) ∧ ∀ k a, m.contains k a = true ↔ r k a := by
  refine ⟨fun h => ⟨fun k => h.hasKey_iff, h.contains_iff⟩, fun ⟨hkeys, hvalues⟩ => ⟨hvalues, ?_⟩⟩
  intro k entry hlookup
  have hkey : m.hasKey k = true := by
    rw [hasKey_eq_isSome, hlookup]
    rfl
  obtain ⟨a, ha⟩ := (hkeys k).mp hkey
  obtain ⟨entry', hlookup', hmem⟩ := contains_iff_exists_entry.mp ((hvalues k a).mpr ha)
  cases hlookup.symm.trans hlookup'
  exact Std.TreeSet.isEmpty_eq_false_iff_exists_contains_eq_true.mpr ⟨a, hmem⟩

theorem Lists.insert {m : Multimap κ α} {r : κ → α → Prop} (h : m.Lists r) (k : κ) (a : α) :
    (m.insert k a).Lists fun k' a' => (compare k k' = .eq ∧ compare a a' = .eq) ∨ r k' a' where
  contains_iff k' a' := by
    rw [contains_insert, ← h.contains_iff]
    split
    · rename_i hkey
      rw [contains_congr_key hkey, Bool.or_eq_true, beq_iff_eq, and_iff_right hkey]
    · rename_i hkey
      rw [or_iff_right fun hboth => hkey hboth.1]
  occupied k' entry hentry := by
    rw [lookup?_insert] at hentry
    split at hentry
    · cases hentry
      exact Std.TreeSet.isEmpty_insert
    · exact h.occupied k' entry hentry

theorem Lists.erase {m : Multimap κ α} {r : κ → α → Prop} (h : m.Lists r) (k : κ) (a : α) :
    (m.erase k a).Lists fun k' a' => ¬ (compare k k' = .eq ∧ compare a a' = .eq) ∧ r k' a' where
  contains_iff k' a' := by
    rw [contains_erase, ← h.contains_iff]
    split
    · rename_i hkey
      rw [contains_congr_key hkey, Bool.and_eq_true, bne_iff_ne, and_iff_right hkey]
    · rename_i hkey
      rw [and_iff_right fun hboth => hkey hboth.1]
  occupied k' entry hentry := by
    rw [lookup?_erase] at hentry
    split at hentry
    · obtain ⟨old, -, hrest⟩ := Option.bind_eq_some_iff.mp hentry
      exact isEmpty_of_without_eq_some hrest
    · exact h.occupied k' entry hentry

end QuadSession.Multimap

/-!
# Sorted lists and lists without repeats

Answers are listed in ascending order.  Items that compare as equal may still
differ in what the order does not look at, so it matters which of them is kept:
sorting leaves them in the order in which they came, and of a run of equal items
the first one stays.

## Main definitions

* `sorted` puts a list in ascending order.
* `distinct` is the sorted list without repeats.

## Main statements

* `pairwise_sorted` and `perm_sorted`: a sorted list is ascending and has the
  items of the list it was made from.
* `pairwise_withoutRepeats`: without its repeats an ascending list is strictly
  ascending.
* `pairwise_distinct` and `contains_distinct`: a list of distinct items is
  strictly ascending and has, up to equality, the items of the list it was made
  from.
-/

namespace QuadSession

variable {α : Type}

/-- The items in ascending order, equal ones in the order in which they came. -/
def sorted [Ord α] (items : List α) : List α :=
  items.mergeSort fun a b => (compare a b).isLE

/-- The items that follow `last`, without those that repeat their predecessor. -/
def dropRepeats [BEq α] (last : α) : List α → List α
  | [] => []
  | a :: rest => if last == a then dropRepeats last rest else a :: dropRepeats a rest

/-- The items without those that repeat their predecessor. -/
def withoutRepeats [BEq α] : List α → List α
  | [] => []
  | a :: rest => a :: dropRepeats a rest

/-- The items in ascending order, of equal ones only the first. -/
def distinct [Ord α] [BEq α] (items : List α) : List α :=
  withoutRepeats (sorted items)

/-! ## Sorted lists -/

theorem perm_sorted [Ord α] (items : List α) : (sorted items).Perm items :=
  List.mergeSort_perm items _

theorem pairwise_sorted [Ord α] [Std.TransOrd α] (items : List α) :
    (sorted items).Pairwise fun a b => (compare a b).isLE = true := by
  unfold sorted
  apply List.pairwise_mergeSort
  · intro a b c hab hbc
    exact Std.TransOrd.isLE_trans hab hbc
  · intro a b
    rw [Std.OrientedOrd.eq_swap (a := b) (b := a)]
    cases compare a b <;> rfl

/-! ## Lists without repeats -/

theorem contains_dropRepeats [BEq α] [EquivBEq α] (last x : α) (items : List α) :
    (last == x || (dropRepeats last items).contains x) =
      (last == x || items.contains x) := by
  induction items generalizing last with
  | nil => rfl
  | cons a rest ih =>
    rw [dropRepeats]
    split
    · rename_i heq
      rw [ih, List.contains_cons, BEq.comm (a := x), ← BEq.congr_left heq]
      cases last == x <;> rfl
    · rw [List.contains_cons, List.contains_cons, BEq.comm (a := x), ih]

theorem contains_withoutRepeats [BEq α] [EquivBEq α] (items : List α) (x : α) :
    (withoutRepeats items).contains x = items.contains x := by
  cases items with
  | nil => rfl
  | cons a rest =>
    rw [withoutRepeats, List.contains_cons, List.contains_cons, BEq.comm (a := x)]
    exact contains_dropRepeats a x rest

theorem dropRepeats_sublist [BEq α] (last : α) (items : List α) :
    (dropRepeats last items).Sublist items := by
  induction items generalizing last with
  | nil => exact .slnil
  | cons a rest ih =>
    rw [dropRepeats]
    split
    · exact (ih last).cons a
    · exact (ih a).cons_cons a

/-- What is left of a list are items of it. -/
theorem withoutRepeats_sublist [BEq α] (items : List α) : (withoutRepeats items).Sublist items := by
  cases items with
  | nil => exact .slnil
  | cons a rest => exact (dropRepeats_sublist a rest).cons_cons a

theorem pairwise_cons_dropRepeats [Ord α] [Std.TransOrd α] [BEq α] [Std.LawfulBEqOrd α]
    (last : α) (items : List α)
    (hitems : (last :: items).Pairwise fun a b => (compare a b).isLE = true) :
    (last :: dropRepeats last items).Pairwise fun a b => compare a b = .lt := by
  induction items generalizing last with
  | nil => exact List.pairwise_singleton _ _
  | cons a rest ih =>
    rw [List.pairwise_cons, List.pairwise_cons] at hitems
    obtain ⟨hlast, ha, hrest⟩ := hitems
    rw [dropRepeats]
    split
    · exact ih last (List.pairwise_cons.mpr
        ⟨fun b hb => hlast b (List.mem_cons_of_mem a hb), hrest⟩)
    · rename_i hne
      have htail := ih a (List.pairwise_cons.mpr ⟨ha, hrest⟩)
      have hlt : compare last a = .lt := by
        have hle := hlast a (List.mem_cons_self ..)
        have hneq : compare last a ≠ .eq := fun heq =>
          hne (Std.LawfulBEqOrd.compare_eq_iff_beq.mp heq)
        cases hcmp : compare last a with
        | lt => rfl
        | eq => exact absurd hcmp hneq
        | gt => rw [hcmp] at hle; exact absurd hle Bool.false_ne_true
      refine List.pairwise_cons.mpr ⟨fun b hb => ?_, htail⟩
      rcases List.mem_cons.mp hb with rfl | hb
      · exact hlt
      · exact Std.TransCmp.lt_trans hlt ((List.pairwise_cons.mp htail).1 b hb)

theorem pairwise_withoutRepeats [Ord α] [Std.TransOrd α] [BEq α] [Std.LawfulBEqOrd α]
    {items : List α} (hitems : items.Pairwise fun a b => (compare a b).isLE = true) :
    (withoutRepeats items).Pairwise fun a b => compare a b = .lt := by
  cases items with
  | nil => exact List.Pairwise.nil
  | cons a rest => exact pairwise_cons_dropRepeats a rest hitems

/-! ## Distinct items -/

theorem contains_distinct [Ord α] [BEq α] [EquivBEq α] (items : List α) (x : α) :
    (distinct items).contains x = items.contains x := by
  rw [distinct, contains_withoutRepeats, Bool.eq_iff_iff, List.contains_iff_exists_mem_beq,
    List.contains_iff_exists_mem_beq]
  simp only [(perm_sorted items).mem_iff]

theorem pairwise_distinct [Ord α] [Std.TransOrd α] [BEq α] [Std.LawfulBEqOrd α]
    (items : List α) : (distinct items).Pairwise fun a b => compare a b = .lt :=
  pairwise_withoutRepeats (pairwise_sorted items)

end QuadSession

import QuadSession.Refusal
import QuadSession.Multimap
import QuadSession.Quads
import QuadSession.Sorting

/-!
# Indexed sets of quads

A dataset holds a primary set of quads and four indices over it: the quads of
each owner, of each subject and of each slot, and for each object that is not a
literal the owners that refer to it.  Literals are not indexed as objects; a
question about one is answered by a scan of the primary set.

Answers that are lists are in order and hold nothing twice.

## Main definitions

* `Dataset.add` and `Dataset.remove` keep the indices in step with the primary
  set and say whether the set changed.
* `Dataset.removeWithObject` removes every quad with a given object.

## Main statements

* `contains_addAll` and `contains_removeAll` say which quads there are after a
  change.
* `size_removeAll` says that a removal makes the set smaller by exactly the
  quads it reports.
-/

namespace QuadSession

/-- A set of quads with indices for the questions that are asked of it. -/
structure Dataset where
  primary : Quads
  byOwner : Multimap Entity Quad
  bySubject : Multimap Term Quad
  bySlot : Multimap Slot Quad
  /-- The owners of the quads with a given object, which is not a literal. -/
  byObject : Multimap Term Entity
  /-- Whether a quad was added since the dataset was last empty by `new` or
  `clear`. -/
  used : Bool
  threadSafe : Bool

namespace Dataset

/-- A dataset without quads. -/
def new (threadSafe : Bool) : Dataset where
  primary := ∅
  byOwner := .empty
  bySubject := .empty
  bySlot := .empty
  byObject := .empty
  used := false
  threadSafe := threadSafe

/-! ## Questions -/

def size (d : Dataset) : Nat :=
  d.primary.size

def isEmpty (d : Dataset) : Bool :=
  d.primary.isEmpty

def contains (d : Dataset) (q : Quad) : Bool :=
  d.primary.contains q

/-- All quads. -/
def quads (d : Dataset) : List Quad :=
  d.primary.toList

/-- The quads that lie in a graph, the default graph if none is named. -/
def inGraph (d : Dataset) (graph : Option Term) : List Quad :=
  d.quads.filter fun q => q.graphTerm == graph

/-- Whether the entity owns a quad. -/
def hasOwner (d : Dataset) (e : Entity) : Bool :=
  d.byOwner.hasKey e

/-- The entities that own a quad. -/
def owners (d : Dataset) : List Entity :=
  d.byOwner.keys

/-- The quads that the entity owns. -/
def ownedBy (d : Dataset) (e : Entity) : List Quad :=
  d.byOwner.values e

/-- The quads with the given subject. -/
def withSubject (d : Dataset) (subject : Term) : List Quad :=
  d.bySubject.values subject

/-- The quads with the given subject and predicate, in every graph. -/
def atSlot (d : Dataset) (slot : Slot) : List Quad :=
  d.bySlot.values slot

/-- The entities that own a quad with the given object. -/
def referrers (d : Dataset) (object : Term) : List Entity :=
  if object.isLiteral then
    distinct ((d.quads.filter fun q => q.object.term == object).map Quad.owner)
  else d.byObject.values object

/-- The quads with the given object.  They are looked up with their owners unless
the object is a literal. -/
def withObject (d : Dataset) (object : Term) : List Quad :=
  if object.isLiteral then d.quads.filter fun q => q.object.term == object
  else
    sorted ((d.referrers object).flatMap fun e =>
      (d.ownedBy e).filter fun q => q.object.term == object)

/-! ## Changes -/

/-- Enters a quad into the primary set and every index. -/
def enter (d : Dataset) (q : Quad) : Dataset :=
  { d with
    primary := d.primary.insert q
    byOwner := d.byOwner.insert q.owner q
    bySubject := d.bySubject.insert q.subject q
    bySlot := d.bySlot.insert q.slot q
    byObject :=
      if q.object.isLiteral then d.byObject else d.byObject.insert q.object.term q.owner
    used := true }

/-- Takes a quad out of the primary set and every index.  Its owner still refers
to its object if it owns another quad with that object. -/
def withdraw (d : Dataset) (q : Quad) : Dataset :=
  let byOwner := d.byOwner.erase q.owner q
  let stillRefers := byOwner.anyValue q.owner fun other => other.object == q.object
  { d with
    primary := d.primary.erase q
    byOwner := byOwner
    bySubject := d.bySubject.erase q.subject q
    bySlot := d.bySlot.erase q.slot q
    byObject :=
      if q.object.isLiteral || stillRefers then d.byObject
      else d.byObject.erase q.object.term q.owner }

/-- Adds a quad, and says whether it was new. -/
def add (d : Dataset) (q : Quad) : Bool × Dataset :=
  if d.contains q then (false, d) else (true, d.enter q)

/-- Removes a quad, and says whether it was there. -/
def remove (d : Dataset) (q : Quad) : Bool × Dataset :=
  if d.contains q then (true, d.withdraw q) else (false, d)

/-- Adds quads one after the other, and returns those that were new. -/
def addAll (d : Dataset) : List Quad → List Quad × Dataset
  | [] => ([], d)
  | q :: rest =>
    let (isNew, d) := d.add q
    let (more, d) := d.addAll rest
    (if isNew then q :: more else more, d)

/-- Removes quads one after the other, and returns those that were there. -/
def removeAll (d : Dataset) : List Quad → List Quad × Dataset
  | [] => ([], d)
  | q :: rest =>
    let (present, d) := d.remove q
    let (more, d) := d.removeAll rest
    (if present then q :: more else more, d)

/-- Removes every quad with the given object, and returns these quads. -/
def removeWithObject (d : Dataset) (object : Term) : List Quad × Dataset :=
  (d.withObject object, (d.removeAll (d.withObject object)).2)

/-- The same dataset without quads, as if nothing had ever been added. -/
def clear (d : Dataset) : Dataset :=
  new d.threadSafe

/-- Switches the mode.  Once a quad has been added the mode is fixed, even if
all quads are removed again. -/
def setThreadSafe (d : Dataset) (threadSafe : Bool) : Except Obstacle Dataset :=
  if d.threadSafe = threadSafe then .ok d
  else if d.used then .error .modeLocked
  else .ok (new threadSafe)

/-! ## What the changes do to the set of quads -/

theorem contains_add (d : Dataset) (q x : Quad) :
    (d.add q).2.contains x = (q == x || d.contains x) := by
  unfold add
  split
  · rename_i hmem
    by_cases h : (q == x) = true
    · rw [h, Bool.true_or]
      exact (Quads.contains_congr h).symm.trans hmem
    · rw [Bool.eq_false_iff.mpr h, Bool.false_or]
  · change (d.primary.insert q).contains x = _
    rw [Std.TreeSet.contains_insert, Quad.compare_beq_eq]
    rfl

theorem contains_remove (d : Dataset) (q x : Quad) :
    (d.remove q).2.contains x = (d.contains x && !(q == x)) := by
  unfold remove
  split
  · change (d.primary.erase q).contains x = _
    rw [Std.TreeSet.contains_erase, Quad.compare_bne_eq, Bool.and_comm]
    rfl
  · rename_i hmem
    by_cases h : (q == x) = true
    · have habsent : d.contains x = false :=
        (Quads.contains_congr h).symm.trans (Bool.eq_false_iff.mpr hmem)
      rw [habsent, Bool.false_and]
    · rw [Bool.eq_false_iff.mpr h, Bool.not_false, Bool.and_true]

theorem contains_addAll (d : Dataset) (quads : List Quad) (x : Quad) :
    (d.addAll quads).2.contains x = (quads.contains x || d.contains x) := by
  induction quads generalizing d with
  | nil => rfl
  | cons q rest ih =>
    simp only [addAll]
    rw [ih, contains_add, List.contains_cons, BEq.comm (a := x), Bool.or_left_comm,
      Bool.or_assoc]

theorem contains_removeAll (d : Dataset) (quads : List Quad) (x : Quad) :
    (d.removeAll quads).2.contains x = (d.contains x && !quads.contains x) := by
  induction quads generalizing d with
  | nil => simp [removeAll]
  | cons q rest ih =>
    simp only [removeAll]
    rw [ih, contains_remove, List.contains_cons, BEq.comm (a := x), Bool.not_or, Bool.and_assoc]

theorem fst_add (d : Dataset) (q : Quad) : (d.add q).1 = !d.contains q := by
  unfold add
  split <;> rename_i hmem <;> simp [hmem]

theorem fst_remove (d : Dataset) (q : Quad) : (d.remove q).1 = d.contains q := by
  unfold remove
  split <;> rename_i hmem <;> simp [hmem]

/-- The quads that were new, among those that were to be added. -/
theorem contains_addAll_fst (d : Dataset) (quads : List Quad) (x : Quad) :
    (d.addAll quads).1.contains x = (quads.contains x && !d.contains x) := by
  induction quads generalizing d with
  | nil => rfl
  | cons q rest ih =>
    have hmore : ((d.add q).2.addAll rest).1.contains x =
        (rest.contains x && !(q == x || d.contains x)) := by rw [ih, contains_add]
    simp only [addAll, fst_add]
    by_cases h : (q == x) = true
    · have hqx : d.contains q = d.contains x := Quads.contains_congr h
      cases hx : d.contains x <;> simp [hqx, hx, hmore, h, BEq.comm (a := x)]
    · cases d.contains q <;> simp [hmore, h, BEq.comm (a := x)]

/-- The quads that were there, among those that were to be removed. -/
theorem contains_removeAll_fst (d : Dataset) (quads : List Quad) (x : Quad) :
    (d.removeAll quads).1.contains x = (quads.contains x && d.contains x) := by
  induction quads generalizing d with
  | nil => rfl
  | cons q rest ih =>
    have hmore : ((d.remove q).2.removeAll rest).1.contains x =
        (rest.contains x && (d.contains x && !(q == x))) := by rw [ih, contains_remove]
    simp only [removeAll, fst_remove]
    by_cases h : (q == x) = true
    · have hqx : d.contains q = d.contains x := Quads.contains_congr h
      cases hx : d.contains x <;> simp [hqx, hx, hmore, h, BEq.comm (a := x)]
    · cases d.contains q <;> simp [hmore, h, BEq.comm (a := x)]

/-! ## Sizes -/

theorem size_remove (d : Dataset) (q : Quad) :
    (d.remove q).2.size + (d.remove q).1.toNat = d.size := by
  unfold remove
  split
  · rename_i hmem
    have hsize : d.primary.size ≠ 0 := by
      intro hzero
      have hempty : d.primary.isEmpty = true := by
        rw [Std.TreeSet.isEmpty_eq_size_eq_zero, hzero]
        rfl
      rw [contains, Std.TreeSet.contains_of_isEmpty hempty] at hmem
      exact Bool.false_ne_true hmem
    have herase : (d.withdraw q).size = d.primary.size - 1 := by
      simp only [size, withdraw, Std.TreeSet.size_erase]
      exact if_pos hmem
    change (d.withdraw q).size + 1 = d.primary.size
    omega
  · rfl

theorem size_removeAll (d : Dataset) (quads : List Quad) :
    (d.removeAll quads).2.size + (d.removeAll quads).1.length = d.size := by
  induction quads generalizing d with
  | nil => rfl
  | cons q rest ih =>
    have hrest := ih (d.remove q).2
    have hfirst := size_remove d q
    simp only [removeAll]
    split <;> rename_i hpresent <;> simp [hpresent] at hfirst ⊢ <;> omega

end Dataset

end QuadSession

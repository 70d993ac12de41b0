import QuadSession.Quad
import Std.Data.TreeSet

/-!
# Sets of quads

A set of quads holds at most one quad for every statement, and lists its quads
in order.  A quad that states what a member already states is not taken in: the
member that came first stays, with the origins of its nodes.
-/

namespace QuadSession

/-- A set of quads, no two of which state the same. -/
abbrev Quads := Std.TreeSet Quad

namespace Quads

/-- The quads of a list.  Of equal ones the first is kept. -/
def ofList (quads : List Quad) : Quads :=
  Std.TreeSet.ofList quads

/-- The members that pass the test. -/
def filter (test : Quad → Bool) (s : Quads) : Quads :=
  ofList (s.toList.filter test)

/-- The members of `s` that are not in `t`. -/
def diff (s t : Quads) : Quads :=
  filter (fun q => !t.contains q) s

/-- The members of `s` and those of `t`, a member of both being taken from
`s`. -/
def union (s t : Quads) : Quads :=
  ofList (s.toList ++ t.toList)

/-- What the members state, in order. -/
def statements (s : Quads) : List Statement :=
  s.toList.map Quad.statement

/-- The members one after the other, with commas between them. -/
def render (s : Quads) : String :=
  ", ".intercalate (s.toList.map Quad.render)

theorem contains_of_mem {quads : List Quad} {q : Quad} (hq : q ∈ quads) :
    quads.contains q = true :=
  List.contains_iff_exists_mem_beq.mpr ⟨q, hq, BEq.refl q⟩

theorem contains_ofList {quads : List Quad} {q : Quad} :
    (ofList quads).contains q = quads.contains q :=
  Std.TreeSet.contains_ofList

/-- A test that does not tell equal quads apart picks the quads it says it
picks. -/
theorem contains_filter_list {test : Quad → Bool}
    (htest : ∀ a b : Quad, (a == b) = true → test a = test b) {quads : List Quad} {q : Quad} :
    (quads.filter test).contains q = (quads.contains q && test q) := by
  rw [Bool.eq_iff_iff]
  simp only [List.contains_iff_exists_mem_beq, List.mem_filter, Bool.and_eq_true]
  constructor
  · rintro ⟨x, ⟨hx, hpass⟩, hqx⟩
    exact ⟨⟨x, hx, hqx⟩, htest q x hqx ▸ hpass⟩
  · rintro ⟨⟨x, hx, hqx⟩, hpass⟩
    exact ⟨x, ⟨hx, htest q x hqx ▸ hpass⟩, hqx⟩

theorem contains_filter {test : Quad → Bool}
    (htest : ∀ a b : Quad, (a == b) = true → test a = test b) {s : Quads} {q : Quad} :
    (filter test s).contains q = (s.contains q && test q) := by
  rw [filter, contains_ofList, contains_filter_list htest, Std.TreeSet.contains_toList]

theorem contains_congr {s : Quads} {a b : Quad} (h : (a == b) = true) :
    s.contains a = s.contains b :=
  Std.TreeSet.contains_congr (Std.LawfulBEqOrd.compare_eq_iff_beq.mpr h)

/-- What does not tell equal quads apart holds of all members of a set if it holds of
the listed ones. -/
theorem forall_contains_iff {P : Quad → Prop} (hP : ∀ a b : Quad, (a == b) = true → P b → P a)
    {s : Quads} : (∀ q, s.contains q = true → P q) ↔ ∀ q ∈ s.toList, P q := by
  simp only [← Std.TreeSet.contains_toList, List.contains_iff_exists_mem_beq]
  constructor
  · intro hall q hq
    exact hall q ⟨q, hq, BEq.refl q⟩
  · rintro hlisted q ⟨x, hx, hqx⟩
    exact hP q x hqx (hlisted x hx)

theorem contains_diff {s t : Quads} {q : Quad} :
    (diff s t).contains q = (s.contains q && !t.contains q) := by
  rw [diff, contains_filter]
  intro a b hab
  rw [contains_congr hab]

theorem contains_union {s t : Quads} {q : Quad} :
    (union s t).contains q = (s.contains q || t.contains q) := by
  rw [union, contains_ofList, List.contains_append, Std.TreeSet.contains_toList,
    Std.TreeSet.contains_toList]

end Quads

end QuadSession

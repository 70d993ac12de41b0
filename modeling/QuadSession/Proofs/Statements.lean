import QuadSession.Dataset

/-!
# Sets of quads by what they state

Equal quads may differ in the origins of their nodes, so a set of quads is best
compared with another one by the statements it lists.  The statements of a set
are strictly ascending, which makes their list a normal form: two sets with the
same members list the same statements.

## Main statements

* `Quads.statements_eq`: sets with the same members list the same statements.
* `Quads.statements_insert` and `Quads.statements_erase`: how one quad changes
  the list.
-/

namespace QuadSession

namespace Quads

variable {s t : Quads} {q : Quad}

theorem contains_iff_exists_mem :
    s.contains q = true ↔ ∃ x ∈ s.toList, x.statement = q.statement := by
  rw [← Std.TreeSet.contains_toList, List.contains_iff_exists_mem_beq]
  constructor
  · rintro ⟨x, hx, hqx⟩
    exact ⟨x, hx, (Quad.beq_iff.mp hqx).symm⟩
  · rintro ⟨x, hx, hxq⟩
    exact ⟨x, hx, Quad.beq_iff.mpr hxq.symm⟩

theorem contains_of_mem_toList (hq : q ∈ s.toList) : s.contains q = true :=
  contains_iff_exists_mem.mpr ⟨q, hq, rfl⟩

theorem mem_statements {st : Statement} :
    st ∈ statements s ↔ ∃ q, s.contains q = true ∧ q.statement = st := by
  unfold statements
  rw [List.mem_map]
  constructor
  · rintro ⟨x, hx, rfl⟩
    exact ⟨x, contains_of_mem_toList hx, rfl⟩
  · rintro ⟨x, hx, rfl⟩
    exact contains_iff_exists_mem.mp hx

theorem pairwise_statements (s : Quads) :
    (statements s).Pairwise fun a b => compare a b = .lt := by
  have hmembers : s.toList.Pairwise fun a b => compare a b = .lt := Std.TreeSet.ordered_toList
  exact List.pairwise_map.mpr hmembers

theorem nodup_statements (s : Quads) : (statements s).Nodup := by
  refine (pairwise_statements s).imp fun {a b} hlt heq => ?_
  rw [heq, Std.ReflOrd.compare_self] at hlt
  exact Ordering.noConfusion hlt

theorem statements_eq_of_perm (h : (statements s).Perm (statements t)) :
    statements s = statements t := by
  refine h.eq_of_pairwise (fun a b _ _ hab hba => ?_) (pairwise_statements s)
    (pairwise_statements t)
  exact absurd hba (Std.OrientedCmp.not_lt_of_lt hab)

/-- The list of statements is a normal form of a set. -/
theorem statements_eq (h : ∀ q, s.contains q = t.contains q) : statements s = statements t := by
  refine statements_eq_of_perm ?_
  rw [List.perm_ext_iff_of_nodup (nodup_statements s) (nodup_statements t)]
  intro st
  simp only [mem_statements, h]

theorem statements_insert (h : s.contains q = false) :
    (statements (s.insert q)).Perm (q.statement :: statements s) := by
  have hperm := Std.TreeSet.toList_insert_perm (t := s) (k := q)
  rw [if_neg (by rw [Std.TreeSet.mem_iff_contains, h]; exact Bool.false_ne_true)] at hperm
  exact hperm.map Quad.statement

theorem statements_erase (h : s.contains q = true) :
    (statements s).Perm (q.statement :: statements (s.erase q)) := by
  have habsent : (s.erase q).contains q = false := by
    rw [Std.TreeSet.contains_erase, Std.ReflOrd.compare_self]
    rfl
  have hback : ∀ x, s.contains x = ((s.erase q).insert q).contains x := by
    intro x
    rw [Std.TreeSet.contains_insert, Std.TreeSet.contains_erase, Quad.compare_beq_eq,
      Quad.compare_bne_eq]
    by_cases hx : (q == x) = true
    · rw [hx, Bool.true_or, ← contains_congr hx, h]
    · rw [Bool.eq_false_iff.mpr hx, Bool.false_or, Bool.not_false, Bool.true_and]
  rw [statements_eq hback]
  exact statements_insert habsent

end Quads

end QuadSession

import QuadSession.Proofs.Mutations
import QuadSession.Proofs.Sample
import QuadSession.Session.Recursion

/-!
# The cascade comes to an end

The calls of a cascade follow quads from one blank node to the next, and blank nodes may
refer to themselves and to each other.  This file proves that the calls end nevertheless,
after at most as many of them as there are quads.

## Strategy

A visit is due only if the index by owner knows its blank node, or the index of objects
lists someone for it.  Both are right, so there is a quad that goes with the blank node
(`Contents.Consistent.isDue_iff_attachedTo`), and every call of the cascade removes a
quad before it makes further calls (`Contents.Consistent.size_detach_lt_of_calls`).  The
number of quads therefore bounds how deep the calls are nested
(`Contents.Consistent.visitAll_eq`) and how many of them there are
(`Contents.Consistent.length_sweep_le`).

The cascade with a list of visits takes the visits of a removed entity before all others.
These are the visits that the call for the entity makes before it returns, so both
remove the same entities in the same order (`Contents.sweep_cons_of_isDue`), and what is
reported as removed is what the calls remove (`Contents.mem_sweep_iff_calls`).

## Main definitions

* `Contents.Terminates`: the visits and all that follows from them come to an end.

## Main statements

* `Session.terminates_run`: deletions and replacements come to an end.
-/

namespace QuadSession

namespace Contents

variable {c : Contents} {v : Visit}

/-! ## A removal takes quads away -/

/-- Whatever is due takes quads away, since a quad goes with it. -/
theorem Consistent.size_detach_lt (h : c.Consistent) (hdue : c.isDue v = true) :
    (c.detach (.blank v.blank)).2.quads.size < c.quads.size := by
  obtain ⟨-, q, hq, hattached⟩ := h.isDue_iff_attachedTo.mp hdue
  have hremoved : (c.detach (.blank v.blank)).1.contains q = true :=
    (contains_detach_fst h.indexed).mpr ⟨hq, hattached⟩
  obtain ⟨x, hx, -⟩ := List.contains_iff_exists_mem_beq.mp hremoved
  have hlength : 0 < (c.detach (.blank v.blank)).1.length := List.length_pos_of_mem hx
  have hsize := c.size_detach (.blank v.blank)
  omega

/-- Every call of a cascade takes quads away. -/
theorem Consistent.size_detach_lt_of_calls (h : c.Consistent) {visits : List Visit}
    {d : Contents} {w : Visit} (hcalls : Calls c visits d w) :
    (d.detach (.blank w.blank)).2.quads.size < d.quads.size := by
  induction hcalls with
  | here due => exact h.size_detach_lt due
  | within due call ih => exact ih (h.detach _)
  | after due call ih => exact ih (h.uproot _ _)
  | past idle call ih => exact ih h

/-- A sweep removes no more entities than it takes quads away. -/
theorem Consistent.length_sweep_le (h : c.Consistent) (visits : List Visit) :
    (c.sweep visits).1.length + (c.sweep visits).2.quads.size ≤ c.quads.size := by
  fun_induction Contents.sweep c visits with
  | case1 c => exact (Nat.zero_add _).le
  | case2 c v rest hdue e removed more final hsweep ih =>
      rw [hsweep] at ih
      have hmore : more.length + final.quads.size ≤ (c.detach (.blank v.blank)).2.quads.size :=
        ih (h.detach e)
      have hless := h.size_detach_lt hdue
      show more.length + 1 + final.quads.size ≤ c.quads.size
      omega
  | case3 c v rest hidle ih => exact ih h

/-! ## Nested calls -/

theorem sweep_nil (c : Contents) : c.sweep [] = ([], c) := by
  rw [Contents.sweep]

/-- Visits are made before those behind them on the list, with all that follows. -/
theorem sweep_append (c : Contents) (visits later : List Visit) :
    c.sweep (visits ++ later) =
      ((c.sweep visits).1 ++ ((c.sweep visits).2.sweep later).1,
        ((c.sweep visits).2.sweep later).2) := by
  fun_induction Contents.sweep c visits with
  | case1 c => rfl
  | case2 c v rest hdue e removed more final hsweep ih =>
      rw [hsweep, List.append_assoc] at ih
      rw [List.cons_append, Contents.sweep, if_pos hdue]
      simp only [e, removed] at ih ⊢
      rw [ih, List.cons_append]
  | case3 c v rest hidle ih => rw [List.cons_append, Contents.sweep, if_neg hidle, ih]

/-- A due visit removes the entity of its blank node, with all that goes with it, and then
it is the turn of the other visits. -/
theorem sweep_cons_of_isDue (hdue : c.isDue v = true) (rest : List Visit) :
    c.sweep (v :: rest) =
      ((c.uproot (.blank v.blank) v.forced).1 ++
          ((c.uproot (.blank v.blank) v.forced).2.sweep rest).1,
        ((c.uproot (.blank v.blank) v.forced).2.sweep rest).2) := by
  rw [Contents.sweep, if_pos hdue]
  simp only [sweep_append, uproot_eq, List.cons_append]

/-- A due visit is itself a call, with those that it leads to, and then it is the turn of
the other visits. -/
theorem calls_cons_of_isDue (hdue : c.isDue v = true) {rest : List Visit} {d : Contents}
    {w : Visit} :
    Calls c (v :: rest) d w ↔ (d = c ∧ w = v) ∨
      Calls (c.detach (.blank v.blank)).2
        (Visit.following (.blank v.blank) v.forced (c.detach (.blank v.blank)).1) d w ∨
      Calls (c.uproot (.blank v.blank) v.forced).2 rest d w := by
  constructor
  · intro hcalls
    cases hcalls with
    | here due => exact .inl ⟨rfl, rfl⟩
    | within due call => exact .inr (.inl call)
    | after due call => exact .inr (.inr call)
    | past idle call => exact absurd hdue (Bool.eq_false_iff.mp idle)
  · rintro (⟨rfl, rfl⟩ | hwithin | hafter)
    · exact .here hdue
    · exact .within hdue hwithin
    · exact .after hdue hafter

theorem calls_cons_of_idle (hidle : ¬ c.isDue v = true) {rest : List Visit} {d : Contents}
    {w : Visit} : Calls c (v :: rest) d w ↔ Calls c rest d w := by
  constructor
  · intro hcalls
    cases hcalls with
    | here due => exact absurd due hidle
    | within due call => exact absurd due hidle
    | after due call => exact absurd due hidle
    | past idle call => exact call
  · exact .past (Bool.eq_false_iff.mpr hidle)

/-- The calls for a list of visits are those for its first part, and those for the other
part from the contents that the first one leaves. -/
theorem calls_append_iff {visits later : List Visit} {d : Contents} {w : Visit} :
    Calls c (visits ++ later) d w ↔ Calls c visits d w ∨ Calls (c.sweep visits).2 later d w := by
  induction visits generalizing c with
  | nil =>
      rw [List.nil_append, sweep_nil]
      exact (or_iff_right fun hcalls => nomatch hcalls).symm
  | cons v rest ih =>
      rw [List.cons_append]
      by_cases hdue : c.isDue v = true
      · rw [sweep_cons_of_isDue hdue, calls_cons_of_isDue hdue, calls_cons_of_isDue hdue, ih]
        simp only [or_assoc]
      · rw [Contents.sweep, if_neg hdue, calls_cons_of_idle hdue, calls_cons_of_idle hdue, ih]

/-- The removals that a sweep reports are those of the calls. -/
theorem mem_sweep_iff_calls {visits : List Visit} {e : Entity} {quads : List Quad} :
    ⟨e, quads⟩ ∈ (c.sweep visits).1 ↔
      ∃ d w, Calls c visits d w ∧ .blank w.blank = e ∧ (d.detach e).1 = quads := by
  fun_induction Contents.sweep c visits with
  | case1 c =>
      refine iff_of_false List.not_mem_nil fun hexists => ?_
      obtain ⟨d, w, hcalls, -⟩ := hexists
      cases hcalls
  | case2 c v rest hdue x removed more final hsweep ih =>
      rw [hsweep] at ih
      have hcalls : ∀ d w, Calls c (v :: rest) d w ↔ (d = c ∧ w = v) ∨
          Calls (c.detach x).2 (Visit.following x v.forced removed ++ rest) d w := fun d w => by
        rw [calls_cons_of_isDue hdue, calls_append_iff, uproot_eq]
      simp only [List.mem_cons, Removal.mk.injEq, ih, hcalls]
      constructor
      · rintro (⟨rfl, rfl⟩ | ⟨d, w, hmore, hquads⟩)
        · exact ⟨c, v, .inl ⟨rfl, rfl⟩, rfl, rfl⟩
        · exact ⟨d, w, .inr hmore, hquads⟩
      · rintro ⟨d, w, ⟨rfl, rfl⟩ | hmore, hentity, hquads⟩
        · subst hentity hquads
          exact .inl ⟨rfl, rfl⟩
        · exact .inr ⟨d, w, hmore, hentity, hquads⟩
  | case3 c v rest hidle ih => simp only [ih, calls_cons_of_idle hidle]

theorem Consistent.length_uproot_le (h : c.Consistent) (e : Entity) (forced : Bool) :
    (c.uproot e forced).1.length + (c.uproot e forced).2.quads.size ≤ c.quads.size + 1 := by
  have hdetach := c.size_detach e
  have hsweep := (h.detach e).length_sweep_le (Visit.following e forced (c.detach e).1)
  simp only [uproot_eq, List.length_cons]
  omega

theorem Consistent.size_uproot_le (h : c.Consistent) (e : Entity) (forced : Bool) :
    (c.uproot e forced).2.quads.size ≤ c.quads.size := by
  have hlength := h.length_uproot_le e forced
  have hfirst : 0 < (c.uproot e forced).1.length := by
    rw [uproot_eq]
    exact Nat.succ_pos _
  omega

/-- Visits that have the entities removed by calls make the same removals as a sweep,
provided that each call removes what goes with its entity. -/
theorem Consistent.visitAll_eq_sweep {n : Nat}
    {remove : Contents → Entity → Bool → Option (List Removal × Contents)}
    (hremove : ∀ (d : Contents) (v : Visit), d.Consistent → d.quads.size ≤ n →
      d.isDue v = true → remove d (.blank v.blank) v.forced =
        some (d.uproot (.blank v.blank) v.forced))
    (h : c.Consistent) (hsize : c.quads.size ≤ n) (visits : List Visit) :
    c.visitAll remove visits = some (c.sweep visits) := by
  induction visits generalizing c with
  | nil => rw [visitAll, sweep_nil]
  | cons v rest ih =>
      rw [visitAll]
      by_cases hdue : c.isDue v = true
      · have hafter : (c.uproot (.blank v.blank) v.forced).2.quads.size ≤ n :=
          (h.size_uproot_le _ _).trans hsize
        rw [if_pos hdue, hremove c v h hsize hdue, sweep_cons_of_isDue hdue]
        simp only [Option.bind_eq_bind, Option.bind_some]
        rw [ih (h.uproot _ _) hafter]
        rfl
      · rw [if_neg hdue, ih h hsize, Contents.sweep, if_neg hdue]

/-- If the depth suffices for the visits that follow, one call more suffices for the
entity. -/
theorem removeWithin_succ {depth : Nat} {e : Entity} {forced : Bool}
    (hvisits : (c.detach e).2.visitAll (removeWithin depth)
        (Visit.following e forced (c.detach e).1) =
      some ((c.detach e).2.sweep (Visit.following e forced (c.detach e).1))) :
    c.removeWithin (depth + 1) e forced = some (c.uproot e forced) := by
  simp only [removeWithin, hvisits, uproot_eq]
  rfl

/-- Nested as deep as there are quads, calls make the removals of a sweep. -/
theorem Consistent.visitAll_eq {depth : Nat} (h : c.Consistent) (hsize : c.quads.size ≤ depth)
    (visits : List Visit) : c.visitAll (removeWithin depth) visits = some (c.sweep visits) := by
  induction depth generalizing c visits with
  | zero =>
      refine h.visitAll_eq_sweep (fun d v hd hsize hdue => ?_) hsize visits
      have hless := hd.size_detach_lt hdue
      omega
  | succ depth ih =>
      refine h.visitAll_eq_sweep (fun d v hd hsize hdue => removeWithin_succ ?_) hsize visits
      -- the removed quads leave enough depth for the visits that follow
      have hless := hd.size_detach_lt hdue
      exact ih (hd.detach _) (by omega) _

/-- The visits and all that follows from them come to an end.  Every call takes quads away
before it makes further calls, and the removals that are reported are those of the calls.
If calls may be nested as deep as there are quads, none of them fails, and there are no
more removals than quads. -/
structure Terminates (c : Contents) (visits : List Visit) : Prop where
  removes : ∀ d w, Calls c visits d w →
    (d.detach (.blank w.blank)).2.quads.size < d.quads.size
  mem_iff : ∀ e quads, ⟨e, quads⟩ ∈ (c.sweep visits).1 ↔
    ∃ d w, Calls c visits d w ∧ .blank w.blank = e ∧ (d.detach e).1 = quads
  visitAll_eq : ∀ depth, c.quads.size ≤ depth →
    c.visitAll (removeWithin depth) visits = some (c.sweep visits)
  length_le : (c.sweep visits).1.length + (c.sweep visits).2.quads.size ≤ c.quads.size

theorem Consistent.terminates (h : c.Consistent) (visits : List Visit) : c.Terminates visits where
  removes _ _ hcalls := h.size_detach_lt_of_calls hcalls
  mem_iff _ _ := mem_sweep_iff_calls
  visitAll_eq _ hsize := h.visitAll_eq hsize visits
  length_le := h.length_sweep_le visits

theorem Consistent.removeWithin_eq {depth : Nat} (h : c.Consistent) (hsize : c.quads.size < depth)
    (e : Entity) (forced : Bool) : c.removeWithin depth e forced = some (c.uproot e forced) := by
  cases depth with
  | zero => exact absurd hsize (Nat.not_lt_zero _)
  | succ depth =>
      have hdetach := c.size_detach e
      exact removeWithin_succ ((h.detach e).visitAll_eq (by omega) _)

end Contents

namespace Session

/-- In every session, deleting an entity and replacing values come to an end, on circles of
blank nodes and by force as well.  Each call to which the visits lead takes quads away
before it makes further visits.  The calls for a deletion suffice if they are nested
one deeper than there are quads, those for the visits after a replacement if they are
nested as deep.  Apart from the deleted entity, no more entities are removed than quads
are gone in the end. -/
theorem terminates_run (options : Options) (commands : List Command) :
    let s := (start options).run commands
    (∀ (e : Entity) (policy : DeletePolicy),
      (s.contents.detach e).2.Terminates
        (Visit.following e policy.deleteChildren (s.contents.detach e).1) ∧
      (∀ depth, s.size < depth → s.contents.removeWithin depth e policy.deleteChildren =
        some (s.contents.uproot e policy.deleteChildren)) ∧
      (s.contents.uproot e policy.deleteChildren).1.length +
        (s.contents.uproot e policy.deleteChildren).2.quads.size ≤ s.size + 1) ∧
    ∀ (e : Entity) (predicate : Predicate) (values : List Node) (graph : Option Node)
      (locale : Option Locale),
      (s.restated e predicate values graph locale).2.Terminates
        (Visit.orphans (s.cleared e predicate graph locale).1) := by
  intro s
  have h : s.contents.Consistent := (consistent_run options commands).contents
  constructor
  · intro e policy
    exact ⟨(h.detach e).terminates _, fun depth hdepth => h.removeWithin_eq hdepth e _,
      h.length_uproot_le e _⟩
  · intro e predicate values graph locale
    exact (consistent_restated h).terminates _

open Sample in
/-- A person lives at an address in a street that refers back to the address.  The forced
deletion of the person ends after at most four calls. -/
theorem terminates_run_person :
    let s := (start {}).run [.load (.iri person) [fact (.iri person) livesAt (.blank address),
      fact (.blank address) livesAt (.blank street), fact (.blank street) knows (.blank address)]]
    let left := (s.contents.detach (.iri person)).2
    let visits := Visit.following (.iri person) true (s.contents.detach (.iri person)).1
    s.size < 4 ∧
      s.contents.removeWithin 4 (.iri person) true = some (s.contents.uproot (.iri person) true) ∧
      (s.contents.uproot (.iri person) true).1.length +
        (s.contents.uproot (.iri person) true).2.quads.size ≤ 4 ∧
      left.quads.size ≤ 2 ∧
      left.visitAll (Contents.removeWithin 2) visits = some (left.sweep visits) ∧
      left.Calls visits left ⟨address, true⟩ ∧
      (left.detach (.blank address)).2.quads.size < left.quads.size := by
  intro s left visits
  obtain ⟨hleft, hcalls, hlength⟩ := (terminates_run {} _).1 (.iri person) .children
  have hsize : s.size < 4 := by decide
  have hsize' : left.quads.size ≤ 2 := by decide
  have hdue : left.isDue ⟨address, true⟩ = true := by decide
  have hvisits : visits = [⟨address, true⟩] := by decide
  have hcall : left.Calls visits left ⟨address, true⟩ := by
    rw [hvisits]
    exact .here hdue
  exact ⟨hsize, hcalls 4 hsize, hlength, hsize', hleft.visitAll_eq 2 hsize', hcall,
    hleft.removes left ⟨address, true⟩ hcall⟩

end Session

end QuadSession

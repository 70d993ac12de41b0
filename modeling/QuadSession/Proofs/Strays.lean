import QuadSession.Proofs.Mutations
import QuadSession.Proofs.Runs

/-!
# No strays are left behind

A blank node has no name of its own, so once nothing refers to it nobody can find
its quads any more.  Replacing and deleting remove such strays.  This file proves
that they remove all of them: if every blank node that owns quads was referred to
before, it still is afterwards.

## Strategy

References disappear in many ways: an entity goes with its quads, a blank entity
also with the quads that refer to it, children go by force, and values are
replaced.  Whichever way it is, the removed quad leads to a visit of its object.
So while a cascade is under way every stray is on the list of visits
(`Contents.AwaitsStrays`).  A visit to a stray removes it, whether it is forced or
not, and the strays that this makes are put on the list.  When no visits remain,
there is no stray.

New quads need a condition.  A replacement may give quads to a blank node that
nothing refers to, and it does not visit that node.  If something refers to the
node at the time of the call, then the reference either stays or is removed in the
same step, and in the second case the node is visited.

## Main definitions

* `Session.Clean`: every blank entity that owns a quad is the object of a quad.
* `Session.Careful`: the commands that make no stray of their own accord.

## Main statements

* `Contents.AwaitsStrays.not_stray_sweep`: a sweep that awaits all strays leaves
  none.
* `Session.Clean.replaced` and `Session.Clean.deleted`: replacing and deleting keep
  a session clean.
* `Session.clean_run`: so does a careful run.
-/

namespace QuadSession

/-! ## Strays in a cascade -/

namespace Contents

variable {c : Contents} {v : Visit} {visits rest : List Visit}

/-- Every stray is still to be visited. -/
def AwaitsStrays (c : Contents) (visits : List Visit) : Prop :=
  ∀ b, c.Stray b → ∃ v ∈ visits, v.blank = b

theorem AwaitsStrays.visit (hawaits : c.AwaitsStrays (v :: rest)) (h : c.Consistent) :
    (c.detach (.blank v.blank)).2.AwaitsStrays
      (Visit.following (.blank v.blank) v.forced (c.detach (.blank v.blank)).1 ++ rest) := by
  intro b hb
  obtain ⟨hne, hbefore | hfollowing⟩ := hb.of_detach h v.forced
  · obtain ⟨w, hw, rfl⟩ := hawaits b hbefore
    rcases List.mem_cons.mp hw with rfl | hrest
    · exact absurd rfl hne
    · exact ⟨w, List.mem_append_right _ hrest, rfl⟩
  · obtain ⟨w, hw, hblank⟩ := hfollowing
    exact ⟨w, List.mem_append_left _ hw, hblank⟩

theorem AwaitsStrays.pass (hawaits : c.AwaitsStrays (v :: rest)) (h : c.Consistent)
    (hidle : ¬ c.isDue v = true) : c.AwaitsStrays rest := by
  intro b hb
  obtain ⟨w, hw, rfl⟩ := hawaits b hb
  rcases List.mem_cons.mp hw with rfl | hrest
  · exact absurd (h.isDue_of_stray hb) hidle
  · exact ⟨w, hrest, rfl⟩

/-- A sweep on whose list all strays are leaves none. -/
theorem AwaitsStrays.not_stray_sweep (hawaits : c.AwaitsStrays visits) (h : c.Consistent)
    (b : Blank) : ¬ (c.sweep visits).2.Stray b := by
  fun_induction Contents.sweep c visits with
  | case1 c =>
      intro hb
      obtain ⟨v, hv, -⟩ := hawaits b hb
      cases hv
  | case2 c v rest hdue e removed more final hsweep ih =>
      rw [hsweep] at ih
      exact ih (hawaits.visit h) (h.detach e)
  | case3 c v rest hidle ih => exact ih (hawaits.pass h hidle) h

theorem not_stray_uproot (h : c.Consistent) (hnone : ∀ b, ¬ c.Stray b) (e : Entity)
    (forced : Bool) (b : Blank) : ¬ (c.uproot e forced).2.Stray b := by
  have hawaits : (c.detach e).2.AwaitsStrays (Visit.following e forced (c.detach e).1) :=
    fun b hb => (hb.of_detach h forced).2.resolve_left (hnone b)
  exact hawaits.not_stray_sweep (h.detach e) b

/-- If every stray was referred to once and the references that are gone are listed,
visiting the objects of the listed quads is all that is needed. -/
theorem awaitsStrays_orphans {S : Set Quad} {quads : List Quad}
    (hreferred : ∀ b, c.Stray b → ∃ r ∈ S, r.object.term = .blank b)
    (hlisted : ∀ r ∈ S, r ∉ c.quads.members → quads.contains r = true) :
    c.AwaitsStrays (Visit.orphans quads) := by
  intro b hb
  obtain ⟨r, hr, hobject⟩ := hreferred b hb
  have hgone : r ∉ c.quads.members := fun hin => hb.unreferenced r hin hobject
  obtain ⟨x, hx, hblank⟩ := exists_mem_of_object (hlisted r hr hgone) hobject
  exact ⟨⟨b, false⟩, Visit.mem_orphans.mpr ⟨rfl, x, hx, Term.blank?_eq_some.mp hblank⟩, rfl⟩

end Contents

/-! ## Clean sessions -/

namespace Session

variable {s t : Session} {command : Command}

/-- Every blank entity that owns a quad is the object of a quad. -/
def Clean (s : Session) : Prop :=
  ∀ q ∈ s.quads, q.owner.isBlank = true → ∃ r ∈ s.quads, r.object.term = q.owner.toTerm

instance : Decidable s.Clean :=
  inferInstanceAs (Decidable (∀ q ∈ s.quads, q.owner.isBlank = true →
    ∃ r ∈ s.quads, r.object.term = q.owner.toTerm))

theorem clean_iff : s.Clean ↔ ∀ b, ¬ s.contents.Stray b := by
  constructor
  · intro hclean b hb
    obtain ⟨q, hq, howner⟩ := hb.owns
    obtain ⟨x, hx, hqx⟩ := Dataset.exists_mem_quads hq
    have howner' : x.owner = .blank b :=
      (Quad.owner_eq_of_statement_eq (Quad.beq_iff.mp hqx)).symm.trans howner
    obtain ⟨r, hr, hobject⟩ := hclean x hx (by rw [howner']; rfl)
    rw [howner'] at hobject
    exact hb.unreferenced r (Dataset.contains_of_mem_quads hr) hobject
  · intro hnone q hq hblank
    cases howner : q.owner with
    | iri name =>
        rw [howner] at hblank
        cases hblank
    | blank b =>
        by_contra hreferred
        refine hnone b ⟨fun r hr hobject => ?_, q, Dataset.contains_of_mem_quads hq, howner⟩
        obtain ⟨x, hx, hrx⟩ := Dataset.exists_mem_quads hr
        exact hreferred ⟨x, hx, (Quad.object_eq_of_beq hrx).symm.trans hobject⟩

theorem clean_start (options : Options) : (start options).Clean := by
  intro q hq
  cases hq

/-- Deleting an entity leaves no stray, however much is forced. -/
theorem Clean.deleted (hclean : s.Clean) (h : s.contents.Consistent) (e : Entity)
    (policy : DeletePolicy) : (s.deleted e policy).Clean := by
  rw [clean_iff] at hclean ⊢
  intro b hb
  have hmembers := members_deleted h e policy
  obtain ⟨q, hq, howner⟩ := hb.owns
  rw [hmembers] at hq
  refine Contents.not_stray_uproot h hclean e policy.deleteChildren b ⟨?_, q, hq.1, howner⟩
  intro r hr hobject
  refine hb.unreferenced r ?_ hobject
  rw [hmembers]
  refine ⟨hr, fun hnullified => ?_⟩
  -- what the policy removes on top refers to an IRI
  obtain ⟨-, hiri, hentity⟩ := hnullified
  rw [hobject] at hentity
  cases e with
  | iri name => cases hentity
  | blank b => cases hiri

/-- Replacing values leaves no stray, if something refers to the entity or it has an
IRI. -/
theorem Clean.replaced (hclean : s.Clean) (h : s.contents.Consistent) {e : Entity}
    (hreferenced : e.isBlank = true → ∃ r ∈ s.quads, r.object.term = e.toTerm)
    (predicate : Predicate) (values : List Node) (graph : Option Node) (locale : Option Locale) :
    (s.replaced e predicate values graph locale).Clean := by
  let removed := (s.cleared e predicate graph locale).1
  let middle := (s.restated e predicate values graph locale).2
  have hreferred : ∀ b, middle.Stray b →
      ∃ r ∈ s.contents.quads.members, r.object.term = .blank b := by
    intro b hb
    obtain ⟨q, hq, howner⟩ := hb.owns
    have hcases : (quadsOfValues e predicate graph values).contains q = true ∨
        (s.cleared e predicate graph locale).2.quads.contains q = true := by
      rw [← Bool.or_eq_true, ← contains_restated]
      exact hq
    rcases hcases with hnew | hold
    · -- the blank node is the entity itself
      have hentity : e = .blank b := (quadsOfValues_owner hnew).symm.trans howner
      subst hentity
      obtain ⟨r, hr, hobject⟩ := hreferenced rfl
      exact ⟨r, Dataset.contains_of_mem_quads hr, hobject⟩
    · rw [contains_cleared, Bool.and_eq_true] at hold
      by_contra hnone
      exact clean_iff.mp hclean b
        ⟨fun r hr hobject => hnone ⟨r, hr, hobject⟩, q, hold.1, howner⟩
  have hlisted : ∀ r ∈ s.contents.quads.members, r ∉ middle.quads.members →
      removed.contains r = true := by
    intro r hr hgone
    have hthere : s.contents.quads.contains r = true := hr
    have hleft : ¬ middle.quads.contains r = true := hgone
    rw [contains_restated, contains_cleared, hthere] at hleft
    rw [contains_cleared_fst, hthere]
    grind
  have hawaits := Contents.awaitsStrays_orphans hreferred hlisted
  have hconsistent : middle.Consistent := consistent_restated h
  exact clean_iff.mpr fun b => hawaits.not_stray_sweep hconsistent b

/-! ## Careful runs -/

/-- A command that makes no stray of its own accord: the entity that is loaded leaves
none, and an entity whose values are replaced has an IRI or is the object of a
quad. -/
inductive Careful (s : Session) : Command → Prop where
  | load {e : Entity} {quads : List Quad} (clean : (s.step (.load e quads)).Clean) :
      Careful s (.load e quads)
  | replace {e : Entity} {predicate : Node} {values : List Node} {graph : Option Node}
      {locale : Option Locale}
      (referenced : e.isBlank = true → ∃ r ∈ s.quads, r.object.term = e.toTerm) :
      Careful s (.replace e predicate values graph locale)
  | delete {e : Entity} {policy : DeletePolicy} : Careful s (.delete e policy)
  | reset : Careful s .reset
  | takeChanges : Careful s .takeChanges

theorem Clean.step (hclean : s.Clean) (h : s.contents.Consistent) (hcareful : s.Careful command) :
    (s.step command).Clean := by
  cases hperform : s.perform command with
  | error refusal =>
      rw [step_eq_of_refused hperform]
      exact hclean
  | ok t =>
      cases hcareful with
      | load hloaded => exact hloaded
      | replace hreferenced =>
          rw [step_eq_of_perform hperform]
          obtain ⟨-, p, -, rfl⟩ := replace_eq_ok.mp hperform
          exact hclean.replaced h hreferenced p _ _ _
      | delete =>
          rw [step_eq_of_perform hperform]
          obtain ⟨-, rfl⟩ := delete_eq_ok.mp hperform
          exact hclean.deleted h _ _
      | reset =>
          rw [step_eq_of_perform hperform]
          obtain ⟨-, rfl⟩ := reset_eq_ok.mp hperform
          exact hclean
      | takeChanges =>
          rw [step_eq_of_perform hperform]
          cases hperform
          exact hclean

/-- In every state of a careful run each blank entity that owns a quad is the object
of a quad. -/
theorem clean_run {options : Options} {commands : List Command}
    (hcareful : ∀ n c, commands[n]? = some c →
      ((start options).run (commands.take n)).Careful c) (n : Nat) :
    ((start options).run (commands.take n)).Clean := by
  have hstep : ∀ (s : Session) (c : Command), s.Clean → s.Consistent ∧ s.Careful c →
      (s.step c).Clean :=
    fun s c hclean hc => hclean.step hc.1.contents hc.2
  have hpermitted : ∀ n c, commands[n]? = some c →
      ((start options).run (commands.take n)).Consistent ∧
        ((start options).run (commands.take n)).Careful c :=
    fun n c hc => ⟨consistent_run options _, hcareful n c hc⟩
  exact forall_foldl_take hstep (clean_start options) hpermitted n

open Sample in
/-- A person is loaded with an address that refers back.  The address, to which the
person refers, gets a new value, and then the person moves away from it. -/
theorem clean_run_person :
    let commands := [.load (.iri person) [fact (.iri person) livesAt (.blank address),
        fact (.blank address) knows (.iri person)],
      .replace (.blank address) (.ofTerm (.iri knows)) [.ofTerm (.blank address)] none none,
      .replace (.iri person) (.ofTerm (.iri livesAt)) [] none none]
    (∀ n c, commands[n]? = some c → ((start {}).run (commands.take n)).Careful c) ∧
      ∀ n, ((start {}).run (commands.take n)).Clean := by
  intro commands
  have hcareful : ∀ n c, commands[n]? = some c →
      ((start {}).run (commands.take n)).Careful c := by
    intro n c hc
    match n with
    | 0 =>
        cases hc
        exact .load (by decide)
    | 1 =>
        cases hc
        exact .replace fun _ => by decide
    | 2 =>
        cases hc
        exact .replace fun hblank => by cases hblank
    | n + 3 => cases hc
  exact ⟨hcareful, clean_run hcareful⟩

end Session

end QuadSession

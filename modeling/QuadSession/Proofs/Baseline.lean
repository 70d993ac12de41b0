import QuadSession.Proofs.Mutations

/-!
# What a rollback would restore

A tracking session keeps its baseline beside its contents.  Replacing and deleting
move the contents away from it, and from then on the two hold different quads.  Two
operations still decide by the contents what becomes of the baseline: loading an
entity, and switching the mode.  This file says what they do to it.

* Loading gives to the baseline the quads that were new to the *contents*
  (`Session.exists_baseline_loaded`).  A quad that a replacement had brought before
  is not new to them, so it does not get into the baseline although it is loaded.
* The mode can be switched while neither the contents nor the log hold anything.
  The baseline starts anew with it, whatever it held.

So a rollback does not always restore what was loaded before.  Each of the two main
statements says exactly when it does, and is followed by a history after which it
does not.

## Main definitions

* `Session.RestoresAlike`: rollbacks of two sessions lead to the same state.

## Main statements

* `Session.rollback_load`: what a rollback restores after an entity was loaded.
* `Session.setThreadSafe_keeps`: what is the same after the mode was switched.
-/

namespace QuadSession

/-- The quads that state what a quad of the list states. -/
def listedIn (quads : List Quad) : Set Quad :=
  {q | quads.contains q = true}

namespace Dataset

theorem members_addAll (d : Dataset) (quads : List Quad) :
    (d.addAll quads).2.members = d.members ∪ listedIn quads := by
  ext q
  show (d.addAll quads).2.contains q = true ↔ d.contains q = true ∨ quads.contains q = true
  rw [contains_addAll, Bool.or_eq_true, or_comm]

theorem listedIn_addAll_fst (d : Dataset) (quads : List Quad) :
    listedIn (d.addAll quads).1 = listedIn quads \ d.members := by
  ext q
  show (d.addAll quads).1.contains q = true ↔ quads.contains q = true ∧ ¬ d.contains q = true
  rw [contains_addAll_fst, Bool.and_eq_true, Bool.not_eq_true', Bool.not_eq_true]

end Dataset

/-- Adding to `R` what `L` has outside of `C` adds all of `L` if and only if the rest
of `L` is in `R`. -/
theorem union_sdiff_eq_union_iff {R L C : Set Quad} : R ∪ (L \ C) = R ∪ L ↔ L ∩ C ⊆ R := by
  constructor
  · rintro heq q ⟨hlisted, hheld⟩
    have hunion : q ∈ R ∪ (L \ C) := heq ▸ Or.inr hlisted
    exact hunion.resolve_right fun hnew => hnew.2 hheld
  · intro hsub
    ext q
    by_cases hheld : q ∈ C <;> grind

namespace ChangeLog

theorem changes_eq_nil_of_isEmpty {log : ChangeLog} (h : log.isEmpty = true) :
    log.changes = [] := by
  rw [isEmpty, ← length_changes, beq_iff_eq] at h
  exact List.length_eq_zero_iff.mp h

theorem changes_setThreadSafe {log next : ChangeLog} {threadSafe : Bool}
    (h : log.setThreadSafe threadSafe = .ok next) : next.changes = log.changes := by
  unfold setThreadSafe at h
  split at h
  · cases h
    rfl
  · split at h
    · rename_i hempty
      cases h
      exact (changes_eq_nil_of_isEmpty hempty).symm
    · cases h

end ChangeLog

namespace Session

variable {s t : Session} {e : Entity} {b : Baseline}

/-! ## Loading -/

theorem closed_loaded (s : Session) (e : Entity) (quads : List Quad) :
    (s.loaded e quads).closed = s.closed := by
  unfold loaded
  split <;> rfl

theorem isLoaded_loaded (s : Session) (e : Entity) (quads : List Quad) :
    (s.loaded e quads).isLoaded e = true := by
  unfold loaded
  split
  · assumption
  · exact Std.TreeSet.contains_insert_self

/-- The baseline takes in the entity, and those of its quads that were new to the
contents. -/
theorem exists_baseline_loaded (hb : s.baseline = some b) (hnew : s.isLoaded e = false)
    (quads : List Quad) : ∃ b', (s.loaded e quads).baseline = some b' ∧
      b'.quads.members = b.quads.members ∪ (listedIn quads \ s.contents.quads.members) ∧
      ∀ x, b'.loaded.contains x = true ↔ x = e ∨ b.loaded.contains x = true := by
  have hbaseline : (s.loaded e quads).baseline = s.baseline.map fun b =>
      ⟨(b.quads.addAll (s.contents.quads.addAll quads).1).2, b.loaded.insert e⟩ := by
    rw [loaded, if_neg (Bool.eq_false_iff.mp hnew)]
    rfl
  rw [hb, Option.map_some] at hbaseline
  refine ⟨_, hbaseline, ?_, fun x => ?_⟩
  · rw [Dataset.members_addAll, Dataset.listedIn_addAll_fst]
  · rw [Std.TreeSet.contains_insert, Bool.or_eq_true, beq_iff_eq,
      Std.LawfulEqOrd.compare_eq_iff_eq, eq_comm]

/-- Let an entity be loaded in a tracking session that it was not loaded in.  A
rollback then restores what it restored before, and of the loaded quads those that
the session did not hold.  These are all loaded quads if and only if those that the
session held were restored before.  In any case the entity is loaded after the
rollback too. -/
theorem rollback_load (hlive : s.closed = false) (htracking : s.isTracking = true)
    (hnew : s.isLoaded e = false) (quads : List Quad) :
    ∃ r t u, s.rollback = .ok r ∧ s.load e quads = .ok t ∧ t.rollback = .ok u ∧
      t.isLoaded e = true ∧ (∀ x, u.isLoaded x = true ↔ x = e ∨ r.isLoaded x = true) ∧
      u.contents.quads.members =
        r.contents.quads.members ∪ (listedIn quads \ s.contents.quads.members) ∧
      (u.contents.quads.members = r.contents.quads.members ∪ listedIn quads ↔
        listedIn quads ∩ s.contents.quads.members ⊆ r.contents.quads.members) := by
  obtain ⟨b, hb⟩ := Option.isSome_iff_exists.mp htracking
  obtain ⟨b', hb', hmembers, hloaded⟩ := exists_baseline_loaded hb hnew quads
  have hlive' : (s.loaded e quads).closed = false := (closed_loaded s e quads).trans hlive
  have hall : b'.quads.members = b.quads.members ∪ listedIn quads ↔
      listedIn quads ∩ s.contents.quads.members ⊆ b.quads.members := by
    rw [hmembers, union_sdiff_eq_union_iff]
  exact ⟨_, _, _, rollback_eq_ok.mpr ⟨hlive, b, hb, rfl⟩, load_eq_ok.mpr ⟨hlive, rfl⟩,
    rollback_eq_ok.mpr ⟨hlive', b', hb', rfl⟩, isLoaded_loaded s e quads, hloaded, hmembers, hall⟩

open Sample in
/-- A person is given a value and only then loaded, with this value and another one. -/
theorem rollback_load_person :
    let s := (start {}).run
      [.replace (.iri person) (.ofTerm (.iri knows)) [.ofTerm (.iri person)] none none]
    let quads := [fact (.iri person) knows (.iri person),
      fact (.iri person) livesAt (.blank address)]
    s.closed = false ∧ s.isTracking = true ∧ s.isLoaded (.iri person) = false ∧
      ∃ r t u, s.rollback = .ok r ∧ s.load (.iri person) quads = .ok t ∧ t.rollback = .ok u ∧
        t.isLoaded (.iri person) = true ∧
        (∀ x, u.isLoaded x = true ↔ x = .iri person ∨ r.isLoaded x = true) ∧
        u.contents.quads.members =
          r.contents.quads.members ∪ (listedIn quads \ s.contents.quads.members) ∧
        (u.contents.quads.members = r.contents.quads.members ∪ listedIn quads ↔
          listedIn quads ∩ s.contents.quads.members ⊆ r.contents.quads.members) := by
  intro s quads
  have hs : s = (start {}).replacedAlone (.iri person) ⟨.ofTerm (.iri knows), rfl⟩
      [.ofTerm (.iri person)] none none :=
    run_replace_eq (p := ⟨.ofTerm (.iri knows), rfl⟩) rfl (by decide) []
  have hlive : s.closed = false := by decide
  have htracking : s.isTracking = true := by decide
  have hnew : s.isLoaded (.iri person) = false := by
    rw [hs]
    decide
  exact ⟨hlive, htracking, hnew, rollback_load hlive htracking hnew quads⟩

open Sample in
/-- If the person is loaded with that value only, a rollback takes the value away,
although it was loaded. -/
theorem rollback_load_ne_person :
    let s := (start {}).run
      [.replace (.iri person) (.ofTerm (.iri knows)) [.ofTerm (.iri person)] none none]
    let quads := [fact (.iri person) knows (.iri person)]
    s.closed = false ∧ s.isTracking = true ∧ s.isLoaded (.iri person) = false ∧
      ∃ r t u, s.rollback = .ok r ∧ s.load (.iri person) quads = .ok t ∧ t.rollback = .ok u ∧
        u.contents.quads.members ≠ r.contents.quads.members ∪ listedIn quads := by
  intro s quads
  have hs : s = (start {}).replacedAlone (.iri person) ⟨.ofTerm (.iri knows), rfl⟩
      [.ofTerm (.iri person)] none none :=
    run_replace_eq (p := ⟨.ofTerm (.iri knows), rfl⟩) rfl (by decide) []
  have hlive : s.closed = false := by decide
  have hnew : s.isLoaded (.iri person) = false := by
    rw [hs]
    decide
  have hb : s.baseline = some (.new false) := rfl
  obtain ⟨b', hb', hmembers, -⟩ := exists_baseline_loaded hb hnew quads
  have hlive' : (s.loaded (.iri person) quads).closed = false :=
    (closed_loaded s (.iri person) quads).trans hlive
  refine ⟨hlive, by decide, hnew, _, _, _, rollback_eq_ok.mpr ⟨hlive, _, hb, rfl⟩,
    load_eq_ok.mpr ⟨hlive, rfl⟩, rollback_eq_ok.mpr ⟨hlive', b', hb', rfl⟩, fun heq => ?_⟩
  -- the value is held by the session, but its baseline is still empty
  have hsub := union_sdiff_eq_union_iff.mp (hmembers.symm.trans heq)
  have hheld : fact (.iri person) knows (.iri person) ∈ s.contents.quads.members := by
    rw [hs]
    show ((start {}).replacedAlone (.iri person) ⟨.ofTerm (.iri knows), rfl⟩
      [.ofTerm (.iri person)] none none).contents.quads.contains _ = true
    decide
  have hrestored : (Dataset.new false).contains (fact (.iri person) knows (.iri person)) = true :=
    hsub ⟨List.contains_iff_exists_mem_beq.mpr ⟨_, List.mem_singleton_self _, BEq.refl _⟩, hheld⟩
  exact absurd hrestored (by decide)

/-! ## Switching the mode -/

/-- Rollbacks of the two sessions are refused for the same cause, or lead to the same
quads and the same loaded entities. -/
structure RestoresAlike (s t : Session) : Prop where
  refused_iff : ∀ refusal, s.rollback = .error refusal ↔ t.rollback = .error refusal
  quads_eq : ∀ r u, s.rollback = .ok r → t.rollback = .ok u → r.quads = u.quads
  isLoaded_eq : ∀ r u, s.rollback = .ok r → t.rollback = .ok u → ∀ e, r.isLoaded e = u.isLoaded e

theorem RestoresAlike.refl (s : Session) : s.RestoresAlike s where
  refused_iff _ := Iff.rfl
  quads_eq r u hr hu := by
    rw [Except.ok.inj (hr.symm.trans hu)]
  isLoaded_eq r u hr hu := by
    rw [Except.ok.inj (hr.symm.trans hu)]
    exact fun _ => rfl

/-- A rollback of the session leads to an empty one. -/
def RestoresNothing (s : Session) : Prop :=
  ∀ r, s.rollback = .ok r → r.quads = [] ∧ ∀ e, r.isLoaded e = false

theorem rollback_eq_error_of_baseline_eq_none (hlive : s.closed = false)
    (hnone : s.baseline = none) : s.rollback = .error (.obstacle .noBaseline) := by
  simp [rollback, ensureOpen, hlive, hnone, bind, Except.bind]

/-- A session whose baseline starts anew restores what it restored before if and only
if that was nothing. -/
theorem restoresAlike_renewed_iff (hs : s.closed = false) (ht : t.closed = false)
    {threadSafe : Bool} (hbaseline : t.baseline = s.baseline.map fun _ => .new threadSafe) :
    RestoresAlike s t ↔ s.RestoresNothing := by
  cases hb : s.baseline with
  | none =>
      rw [hb, Option.map_none] at hbaseline
      have hrefused := rollback_eq_error_of_baseline_eq_none hs hb
      have hrefused' := rollback_eq_error_of_baseline_eq_none ht hbaseline
      refine iff_of_true ⟨fun refusal => ?_, ?_, ?_⟩ ?_
      · rw [hrefused, hrefused']
      · intro r u hr
        rw [hrefused] at hr
        cases hr
      · intro r u hr
        rw [hrefused] at hr
        cases hr
      · intro r hr
        rw [hrefused] at hr
        cases hr
  | some b =>
      rw [hb, Option.map_some] at hbaseline
      have hr := rollback_eq_ok.mpr ⟨hs, b, hb, rfl⟩
      have hu := rollback_eq_ok.mpr ⟨ht, _, hbaseline, rfl⟩
      constructor
      · intro halike r' hr'
        cases hr.symm.trans hr'
        exact ⟨halike.quads_eq _ _ hr hu, halike.isLoaded_eq _ _ hr hu⟩
      · intro hnothing
        obtain ⟨hquads, hloaded⟩ := hnothing _ hr
        refine ⟨fun refusal => ?_, ?_, ?_⟩
        · rw [hr, hu]
          exact iff_of_false nofun nofun
        · intro r' u' hr' hu'
          cases hr.symm.trans hr'
          cases hu.symm.trans hu'
          exact hquads
        · intro r' u' hr' hu'
          cases hr.symm.trans hr'
          cases hu.symm.trans hu'
          exact hloaded

theorem restoresAlike_setThreadSafe_iff {threadSafe : Bool}
    (ht : s.setThreadSafe threadSafe = .ok t) (hmode : s.isThreadSafe ≠ threadSafe) :
    s.RestoresAlike t ↔ s.RestoresNothing := by
  obtain ⟨hlive, ⟨hsame, -⟩ | ⟨-, -, log, -, rfl⟩⟩ := setThreadSafe_eq_ok.mp ht
  · exact absurd hsame hmode
  · exact restoresAlike_renewed_iff hlive hlive rfl

/-- Switching the mode keeps all that a session holds: its quads, the loaded entities,
the counts, the changes and whether it tracks them.  What a rollback restores is kept
if and only if the mode was the same already or nothing would have been restored. -/
theorem setThreadSafe_keeps {threadSafe : Bool} (ht : s.setThreadSafe threadSafe = .ok t) :
    t.quads = s.quads ∧ (∀ x, t.isLoaded x = s.isLoaded x) ∧
      (∀ x, t.referenceCount x = s.referenceCount x) ∧ t.changes = s.changes ∧
      t.isTracking = s.isTracking ∧
      (s.RestoresAlike t ↔ s.isThreadSafe = threadSafe ∨ s.RestoresNothing) := by
  obtain ⟨hlive, ⟨hmode, rfl⟩ | ⟨hmode, hdata, log, hlog, rfl⟩⟩ := setThreadSafe_eq_ok.mp ht
  · exact ⟨rfl, fun _ => rfl, fun _ => rfl, rfl, rfl, iff_of_true (.refl s) (.inl hmode)⟩
  · refine ⟨(quads_eq_nil_of_holdsData hdata).symm, fun _ => rfl, fun _ => rfl,
      ChangeLog.changes_setThreadSafe hlog, Option.isSome_map, ?_⟩
    rw [or_iff_right hmode]
    exact restoresAlike_setThreadSafe_iff ht hmode

open Sample in
/-- The only value of a loaded person is replaced by none, and the change is taken out
of the log. -/
theorem setThreadSafe_keeps_person :
    let s := (start {}).run [.load (.iri person) [fact (.iri person) knows (.iri person)],
      .replace (.iri person) (.ofTerm (.iri knows)) [] none none, .takeChanges]
    ∃ t, s.setThreadSafe true = .ok t ∧
      t.quads = s.quads ∧ (∀ x, t.isLoaded x = s.isLoaded x) ∧
      (∀ x, t.referenceCount x = s.referenceCount x) ∧ t.changes = s.changes ∧
      t.isTracking = s.isTracking ∧
      (s.RestoresAlike t ↔ s.isThreadSafe = true ∨ s.RestoresNothing) := by
  intro s
  have hs : s = _ :=
    run_replace_eq (p := ⟨.ofTerm (.iri knows), rfl⟩) rfl (by decide) [.takeChanges]
  have hdata : s.holdsData = false := by
    rw [hs]
    decide
  obtain ⟨t, ht⟩ := exists_setThreadSafe_eq_ok rfl hdata true
  exact ⟨t, ht, setThreadSafe_keeps ht⟩

open Sample in
/-- If the mode is switched then, a rollback no longer restores the value. -/
theorem not_restoresAlike_person :
    let s := (start {}).run [.load (.iri person) [fact (.iri person) knows (.iri person)],
      .replace (.iri person) (.ofTerm (.iri knows)) [] none none, .takeChanges]
    ∃ t, s.setThreadSafe true = .ok t ∧ ¬ s.RestoresAlike t := by
  intro s
  have hs : s = _ :=
    run_replace_eq (p := ⟨.ofTerm (.iri knows), rfl⟩) rfl (by decide) [.takeChanges]
  have hdata : s.holdsData = false := by
    rw [hs]
    decide
  have hmode : s.isThreadSafe ≠ true := by
    rw [hs]
    decide
  obtain ⟨t, ht⟩ := exists_setThreadSafe_eq_ok rfl hdata true
  refine ⟨t, ht, fun halike => ?_⟩
  have hnothing := (restoresAlike_setThreadSafe_iff ht hmode).mp halike
  -- the baseline still holds the value that was loaded
  obtain ⟨b, hb, hheld⟩ : ∃ b, s.baseline = some b ∧ b.quads.quads.length = 1 :=
    ⟨_, rfl, by decide⟩
  have hquads : b.quads.quads = [] := (hnothing _ (rollback_eq_ok.mpr ⟨rfl, b, hb, rfl⟩)).1
  rw [hquads] at hheld
  cases hheld

end Session

end QuadSession

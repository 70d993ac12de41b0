import QuadSession.Proofs.References
import QuadSession.Proofs.Runs

/-!
# Going back to the baseline

A session keeps its baseline beside its contents and feeds both of them when an
entity is loaded: the contents take in the quads of the entity, the baseline takes
in those of them that were new.  This file proves that a rollback leads back to the
state in which loading ended, whatever was replaced and deleted since.

## Strategy

While a session is only loaded, its baseline is a copy of its contents
(`Session.AtBaseline`): adding the quads that were new gives the same dataset as
adding all of them (`Dataset.addAll_new`).  Afterwards no replacement and no deletion
touches the baseline, however far its cascade goes, so a rollback finds the copy
unchanged.  The counts are not copied but taken anew from the quads.  They agree
with the counts that were kept step by step because those were right
(`Contents.Consistent`).

## Main statements

* `Session.AtBaseline.loaded`: loading keeps the baseline equal to the contents.
* `Session.Undoable.step`: what a rollback undoes leaves the baseline alone.
* `Session.rollback_run`: a rollback restores the state in which loading ended.
-/

namespace QuadSession

namespace Dataset

/-- Adding only the quads that are new leads to the same dataset. -/
theorem addAll_new (d : Dataset) (quads : List Quad) :
    (d.addAll (d.addAll quads).1).2 = (d.addAll quads).2 := by
  induction quads generalizing d with
  | nil => rfl
  | cons q rest ih =>
      by_cases hthere : d.contains q = true
      · have hadd : d.add q = (false, d) := if_pos hthere
        simp only [addAll, hadd]
        exact ih d
      · have hadd : d.add q = (true, d.enter q) := if_neg hthere
        simp only [addAll, hadd, if_true]
        exact ih (d.enter q)

end Dataset

namespace Session

/-! ## Loading -/

/-- The session is open, its counts and indices are right, and if it has a baseline,
that is a copy of its contents. -/
structure AtBaseline (s : Session) : Prop where
  live : s.closed = false
  consistent : s.contents.Consistent
  baseline : ∀ b, s.baseline = some b → b = .ofContents s.contents

theorem atBaseline_start (options : Options) : (start options).AtBaseline where
  live := rfl
  consistent := Contents.consistent_new options.threadSafe
  baseline b hb := by
    unfold start at hb
    split at hb
    · cases hb
      rfl
    · cases hb

variable {s t l : Session}

theorem atBaseline_reset (h : s.Consistent) (ht : s.reset = .ok t) : t.AtBaseline := by
  obtain ⟨hlive, rfl⟩ := reset_eq_ok.mp ht
  refine ⟨hlive, h.contents, fun b hb => ?_⟩
  obtain ⟨old, -, rfl⟩ := Option.map_eq_some_iff.mp hb
  rfl

theorem AtBaseline.loaded (h : s.AtBaseline) (e : Entity) (quads : List Quad) :
    (s.loaded e quads).AtBaseline := by
  unfold Session.loaded
  split
  · exact h
  · have hadded := h.consistent.add quads
    refine ⟨h.live, ⟨hadded.indexed, hadded.count_eq⟩, fun b hb => ?_⟩
    obtain ⟨old, hold, rfl⟩ := Option.map_eq_some_iff.mp hb
    rw [h.baseline old hold]
    simp only [Baseline.ofContents, Contents.add, Dataset.addAll_new]

end Session

/-- The command loads an entity. -/
def Command.isLoad : Command → Bool
  | .load .. => true
  | _ => false

namespace Session

variable {s t l : Session} {command : Command}

theorem AtBaseline.step (h : s.AtBaseline) (hload : command.isLoad = true) :
    (s.step command).AtBaseline := by
  cases command with
  | load e quads =>
      have hperform : s.perform (.load e quads) = .ok (s.loaded e quads) :=
        load_eq_ok.mpr ⟨h.live, rfl⟩
      rw [step_eq_of_perform hperform]
      exact h.loaded e quads
  | replace e predicate values graph locale => cases hload
  | delete e policy => cases hload
  | reset => cases hload
  | rollback => cases hload
  | takeChanges => cases hload
  | setThreadSafe threadSafe => cases hload
  | setTracking tracking => cases hload
  | dispose => cases hload

theorem AtBaseline.run (h : s.AtBaseline) {loads : List Command}
    (hloads : ∀ c ∈ loads, c.isLoad = true) : (s.run loads).AtBaseline :=
  foldl_of_permitted (fun _ _ hs hload => hs.step hload) h
    fun _ c hc => hloads c (List.mem_of_getElem? hc)

/-! ## What a rollback undoes -/

/-- A rollback undoes the command: it replaces values, deletes an entity, takes the
changes out of the log, loads an entity that is loaded, or is refused. -/
inductive Undoable (s : Session) : Command → Prop where
  | replace {e : Entity} {predicate : Node} {values : List Node} {graph : Option Node}
      {locale : Option Locale} : Undoable s (.replace e predicate values graph locale)
  | delete {e : Entity} {policy : DeletePolicy} : Undoable s (.delete e policy)
  | takeChanges : Undoable s .takeChanges
  | reload {e : Entity} {quads : List Quad} (loaded : s.isLoaded e = true) :
      Undoable s (.load e quads)
  | refused {command : Command} {refusal : Refusal} (refused : s.perform command = .error refusal) :
      Undoable s command

/-- The sessions are both open or both closed, and have the same baseline. -/
structure SharesBaseline (s t : Session) : Prop where
  closed_eq : s.closed = t.closed
  baseline_eq : s.baseline = t.baseline

theorem SharesBaseline.refl (s : Session) : s.SharesBaseline s :=
  ⟨rfl, rfl⟩

theorem SharesBaseline.trans {r : Session} (hrs : r.SharesBaseline s) (hst : s.SharesBaseline t) :
    r.SharesBaseline t :=
  ⟨hrs.closed_eq.trans hst.closed_eq, hrs.baseline_eq.trans hst.baseline_eq⟩

theorem Undoable.step (h : s.Undoable command) : (s.step command).SharesBaseline s := by
  cases hperform : s.perform command with
  | error refusal =>
      rw [step_eq_of_refused hperform]
      exact .refl s
  | ok t =>
      rw [step_eq_of_perform hperform]
      cases h with
      | replace =>
          obtain ⟨-, p, -, rfl⟩ := replace_eq_ok.mp hperform
          exact ⟨rfl, rfl⟩
      | delete =>
          obtain ⟨-, rfl⟩ := delete_eq_ok.mp hperform
          exact ⟨rfl, rfl⟩
      | takeChanges =>
          cases hperform
          exact ⟨rfl, rfl⟩
      | reload hloaded =>
          obtain ⟨-, rfl⟩ := load_eq_ok.mp hperform
          rw [Session.loaded, if_pos hloaded]
          exact .refl s
      | refused hrefused =>
          rw [hperform] at hrefused
          cases hrefused

theorem sharesBaseline_run {commands : List Command}
    (hundoable : ∀ n c, commands[n]? = some c → (s.run (commands.take n)).Undoable c) :
    (s.run commands).SharesBaseline s :=
  foldl_of_permitted (fun _ _ hshares hcommand => hcommand.step.trans hshares) (.refl s) hundoable

/-! ## The way back -/

/-- The session answers as the other one does about quads, loaded entities and
references, its indices agree, and nothing is logged in it. -/
structure Restores (t l : Session) : Prop where
  quads_eq : t.quads = l.quads
  isLoaded_eq : ∀ e, t.isLoaded e = l.isLoaded e
  referenceCount_eq : ∀ b, t.referenceCount (.blank b) = l.referenceCount (.blank b)
  isSound : t.isSound = true
  changes_eq_nil : t.changes = []

theorem AtBaseline.restores_rollback (h : l.AtBaseline) (htracking : l.isTracking = true)
    (hs : s.SharesBaseline l) : ∃ t, s.rollback = .ok t ∧ t.Restores l := by
  obtain ⟨b, hb⟩ := Option.isSome_iff_exists.mp htracking
  have hcopy := h.baseline b hb
  refine ⟨_, rollback_eq_ok.mpr ⟨hs.closed_eq.trans h.live, b, hs.baseline_eq.trans hb, rfl⟩, ?_⟩
  subst hcopy
  refine ⟨rfl, fun e => rfl, fun blank => ?_, h.consistent.indexed.isSound, rfl⟩
  have hcount : (Tally.ofQuads l.contents.quads.quads).count blank =
      l.contents.tally.count blank := by
    rw [Tally.count_ofQuads, h.consistent.count_eq]
  exact congrArg Except.ok hcount

/-- Let a tracking session be new or reset, and then only be loaded.  Whatever is
replaced and deleted afterwards, a rollback succeeds and leads back to where loading
ended. -/
theorem rollback_run {options : Options} {commands loads later : List Command}
    (hs : s = start options ∨ ((start options).run commands).reset = .ok s)
    (hloads : ∀ c ∈ loads, c.isLoad = true) (hl : s.run loads = l)
    (htracking : l.isTracking = true)
    (hlater : ∀ n c, later[n]? = some c → (l.run (later.take n)).Undoable c) :
    ∃ t, (l.run later).rollback = .ok t ∧ t.Restores l := by
  have hstart : s.AtBaseline := by
    rcases hs with rfl | hreset
    · exact atBaseline_start options
    · exact atBaseline_reset (consistent_run options commands) hreset
  have hend : l.AtBaseline := hl ▸ hstart.run hloads
  exact hend.restores_rollback htracking (sharesBaseline_run hlater)

open Sample in
/-- A person is loaded with an address.  The person is then loaded once more, tracking
cannot be switched off, and the person is deleted, which takes the address along. -/
theorem rollback_run_person :
    let s := start {}
    let loads := [.load (.iri person) [fact (.iri person) livesAt (.blank address),
      fact (.blank address) knows (.iri person)]]
    let l := s.run loads
    let later := [.load (.iri person) [], .setTracking false, .delete (.iri person) {}]
    (s = start {} ∨ ((start {}).run []).reset = .ok s) ∧
      (∀ c ∈ loads, Command.isLoad c = true) ∧ l.isTracking = true ∧
      (∀ n c, later[n]? = some c → (l.run (later.take n)).Undoable c) ∧
      ∃ t, (l.run later).rollback = .ok t ∧ t.Restores l := by
  intro s loads l later
  have hs : s = start {} ∨ ((start {}).run []).reset = .ok s := .inl rfl
  have hloads : ∀ c ∈ loads, Command.isLoad c = true := List.forall_mem_singleton.mpr rfl
  have htracking : l.isTracking = true := by decide
  have hloaded : l.isLoaded (.iri person) = true := by decide
  have hlater : ∀ n c, later[n]? = some c → (l.run (later.take n)).Undoable c := by
    intro n c hc
    match n with
    | 0 =>
        cases hc
        exact .reload hloaded
    | 1 =>
        cases hc
        exact .refused rfl
    | 2 =>
        cases hc
        exact .delete
    | n + 3 => cases hc
  exact ⟨hs, hloads, htracking, hlater, rollback_run hs hloads rfl htracking hlater⟩

end Session

end QuadSession

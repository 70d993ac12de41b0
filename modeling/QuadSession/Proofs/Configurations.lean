import QuadSession.Proofs.Operations
import QuadSession.Proofs.Sample

/-!
# Sessions that differ in their options

A session can be set up for one thread or for several, and with or without a log of its
changes.  This file shows that the options do not matter to what a session holds: sessions
with different options go through the same commands with the same outcomes, and answer
every question about their quads alike.

## Strategy

`Session.configured` says what a session would look like had it been set up with other
options.  The mode is replaced wherever it is stored, and without tracking there is no
baseline and nothing is logged.  No operation looks at the mode, and no operation looks at
the log or the baseline to find out what the session holds, so each step commutes with
`configured` (`perform_configured`), and so does a run.  Two runs are then compared by
comparing each with the run of the session with the usual options.

Three commands are left out, since whether they are permitted depends on the options: a
rollback, and the two that switch an option.

## Main definitions

* `Session.configured`: a session as it would be with other options.
* `Session.AnswersAlike`, `Session.LogsAlike`: two sessions cannot be told apart by
  questions about their quads, or by questions about their changes.

## Main statements

* `Session.run_configured`: a run commutes with a change of options.
* `Session.run_answersAlike`: at no time in a run do the options matter.
-/

namespace QuadSession

/-! ## Changing the mode -/

/-- The same dataset in another mode. -/
def Dataset.inMode (d : Dataset) (threadSafe : Bool) : Dataset :=
  { d with threadSafe }

/-- The same contents in another mode. -/
def Contents.inMode (c : Contents) (threadSafe : Bool) : Contents :=
  { c with quads := c.quads.inMode threadSafe }

/-- The same baseline in another mode. -/
def Baseline.inMode (b : Baseline) (threadSafe : Bool) : Baseline :=
  { b with quads := b.quads.inMode threadSafe }

/-- The same log in another mode. -/
def ChangeLog.inMode (log : ChangeLog) (threadSafe : Bool) : ChangeLog :=
  { log with threadSafe }

variable {mode : Bool}

namespace Dataset

theorem add_inMode (d : Dataset) (q : Quad) :
    (d.inMode mode).add q = ((d.add q).1, (d.add q).2.inMode mode) := by
  change (if d.contains q then _ else _) = _
  unfold add
  split <;> rfl

theorem remove_inMode (d : Dataset) (q : Quad) :
    (d.inMode mode).remove q = ((d.remove q).1, (d.remove q).2.inMode mode) := by
  change (if d.contains q then _ else _) = _
  unfold remove
  split <;> rfl

theorem addAll_inMode (d : Dataset) (quads : List Quad) :
    (d.inMode mode).addAll quads = ((d.addAll quads).1, (d.addAll quads).2.inMode mode) := by
  induction quads generalizing d with
  | nil => rfl
  | cons q rest ih => simp only [addAll, add_inMode, ih]

theorem removeAll_inMode (d : Dataset) (quads : List Quad) :
    (d.inMode mode).removeAll quads =
      ((d.removeAll quads).1, (d.removeAll quads).2.inMode mode) := by
  induction quads generalizing d with
  | nil => rfl
  | cons q rest ih => simp only [removeAll, remove_inMode, ih]

theorem removeWithObject_inMode (d : Dataset) (object : Term) :
    (d.inMode mode).removeWithObject object =
      ((d.removeWithObject object).1, (d.removeWithObject object).2.inMode mode) := by
  have hobject : (d.inMode mode).withObject object = d.withObject object := rfl
  simp only [removeWithObject, hobject, removeAll_inMode]

end Dataset

namespace Contents

theorem add_inMode (c : Contents) (quads : List Quad) :
    (c.inMode mode).add quads = ((c.add quads).1, (c.add quads).2.inMode mode) := by
  simp only [add, inMode, Dataset.addAll_inMode]

theorem remove_inMode (c : Contents) (quads : List Quad) :
    (c.inMode mode).remove quads = ((c.remove quads).1, (c.remove quads).2.inMode mode) := by
  simp only [remove, inMode, Dataset.removeAll_inMode]

theorem detach_inMode (c : Contents) (e : Entity) :
    (c.inMode mode).detach e = ((c.detach e).1, (c.detach e).2.inMode mode) := by
  have howned (d : Dataset) : (d.inMode mode).ownedBy e = d.ownedBy e := rfl
  have hobject (d : Dataset) : (d.inMode mode).withObject e.toTerm = d.withObject e.toTerm := rfl
  simp only [detach, inMode, howned, hobject, Dataset.removeAll_inMode]

theorem sweep_inMode (c : Contents) (visits : List Visit) :
    (c.inMode mode).sweep visits = ((c.sweep visits).1, (c.sweep visits).2.inMode mode) := by
  have hdue (c : Contents) (v : Visit) : (c.inMode mode).isDue v = c.isDue v := rfl
  induction c, visits using sweep.induct with
  | case1 c => simp only [sweep]
  | case2 c v rest due e removed more final hsweep ih =>
      have hlater : ((c.detach e).2.inMode mode).sweep
          (Visit.following e v.forced (c.detach e).1 ++ rest) = _ := ih
      rw [sweep, sweep, if_pos due, if_pos ((hdue c v).trans due)]
      simp only [detach_inMode]
      rw [hlater]
  | case3 c v rest due ih =>
      rw [sweep, sweep, if_neg due, if_neg (hdue c v ▸ due), ih]

theorem uproot_inMode (c : Contents) (e : Entity) (forced : Bool) :
    (c.inMode mode).uproot e forced =
      ((c.uproot e forced).1, (c.uproot e forced).2.inMode mode) := by
  simp only [uproot, detach_inMode, sweep_inMode]

end Contents

namespace ChangeLog

theorem add_inMode (log : ChangeLog) (change : Change) :
    (log.inMode mode).add change = (log.add change).inMode mode := by
  unfold add
  split
  · rfl
  · cases change <;> rfl

theorem addAll_inMode (log : ChangeLog) (changes : List Change) :
    (log.inMode mode).addAll changes = (log.addAll changes).inMode mode := by
  induction changes generalizing log with
  | nil => rfl
  | cons change rest ih =>
      simp only [addAll, List.foldl_cons] at ih ⊢
      rw [add_inMode, ih]

end ChangeLog

/-! ## Changing the options -/

/-- The commands that are permitted alike whatever the options are. -/
def Command.isUniversal : Command → Bool
  | .rollback | .setThreadSafe _ | .setTracking _ => false
  | _ => true

namespace Session

/-- The session as it would be had it been set up with these options. -/
def configured (s : Session) (o : Options) : Session where
  contents := s.contents.inMode o.threadSafe
  log := if o.tracking then s.log.inMode o.threadSafe else .new o.threadSafe
  baseline := if o.tracking then s.baseline.map (·.inMode o.threadSafe) else none
  closed := s.closed

theorem start_configured (o : Options) : (start {}).configured o = start o := by
  obtain ⟨threadSafe, tracking⟩ := o
  cases tracking <;> rfl

variable (s : Session) (o : Options)

theorem isTracking_configured : (s.configured o).isTracking = (o.tracking && s.isTracking) := by
  obtain ⟨threadSafe, tracking⟩ := o
  cases tracking <;> simp [isTracking, configured]

theorem ensureOpen_configured : (s.configured o).ensureOpen = s.ensureOpen := rfl

theorem clear_configured :
    (s.configured o).log.clear = if o.tracking then s.log.clear.inMode o.threadSafe
      else .new o.threadSafe := by
  obtain ⟨threadSafe, tracking⟩ := o
  cases tracking <;> rfl

/-- What a mutation records, a session with other options records if it tracks its
changes. -/
theorem record_configured (changes : List Change) :
    (if (s.configured o).isTracking then (s.configured o).log.addAll changes
      else (s.configured o).log) =
      if o.tracking then
        (if s.isTracking then s.log.addAll changes else s.log).inMode o.threadSafe
      else .new o.threadSafe := by
  rw [isTracking_configured]
  obtain ⟨threadSafe, tracking⟩ := o
  cases tracking
  · rfl
  · cases s.isTracking
    · rfl
    · exact ChangeLog.addAll_inMode s.log changes

/-! ## Operations -/

theorem loaded_configured (e : Entity) (quads : List Quad) :
    (s.configured o).loaded e quads = (s.loaded e quads).configured o := by
  have hloaded : (s.configured o).isLoaded e = s.isLoaded e := rfl
  unfold loaded
  rw [hloaded]
  split
  · rfl
  · have hadd : (s.configured o).contents.add quads = _ := Contents.add_inMode s.contents quads
    rw [hadd]
    obtain ⟨threadSafe, tracking⟩ := o
    cases tracking
    · rfl
    · cases hbaseline : s.baseline <;>
        simp [configured, Contents.inMode, Baseline.inMode, Dataset.addAll_inMode, hbaseline]

theorem replaced_configured (e : Entity) (predicate : Predicate) (values : List Node)
    (graph : Option Node) (locale : Option Locale) :
    (s.configured o).replaced e predicate values graph locale =
      (s.replaced e predicate values graph locale).configured o := by
  have hselected : (s.configured o).selected e predicate.term (graph.map Node.term) locale =
      s.selected e predicate.term (graph.map Node.term) locale := rfl
  have hcontents : (s.configured o).contents = s.contents.inMode o.threadSafe := rfl
  simp only [replaced, hselected, hcontents, Contents.remove_inMode, Contents.add_inMode,
    Contents.sweep_inMode, record_configured]
  rfl

theorem deleted_configured (e : Entity) (policy : DeletePolicy) :
    (s.configured o).deleted e policy = (s.deleted e policy).configured o := by
  have hcontents : (s.configured o).contents = s.contents.inMode o.threadSafe := rfl
  have hquads (c : Contents) : (c.inMode o.threadSafe).quads = c.quads.inMode o.threadSafe := rfl
  simp only [deleted, hcontents, Contents.uproot_inMode, hquads, Dataset.removeWithObject_inMode,
    record_configured]
  split <;> rfl

theorem reset_configured :
    (s.configured o).reset = s.reset.map (·.configured o) := by
  unfold reset
  rw [ensureOpen_configured, clear_configured]
  cases s.ensureOpen with
  | error refusal => rfl
  | ok _ =>
      obtain ⟨threadSafe, tracking⟩ := o
      cases tracking <;> cases hbaseline : s.baseline <;>
        simp [Except.map, bind, Except.bind, pure, Except.pure, configured, hbaseline,
          Baseline.ofContents, Baseline.inMode, Contents.inMode]

theorem takeChanges_configured :
    (s.configured o).takeChanges.2 = s.takeChanges.2.configured o := by
  obtain ⟨threadSafe, tracking⟩ := o
  cases tracking <;> rfl

theorem dispose_configured : (s.configured o).dispose = s.dispose.configured o := by
  have hclosed : (s.configured o).closed = s.closed := rfl
  unfold dispose
  rw [hclosed, clear_configured]
  split
  · rfl
  · obtain ⟨threadSafe, tracking⟩ := o
    cases tracking <;> rfl

/-- A command does in a session with other options what it does in the session. -/
theorem perform_configured {command : Command} (hcommand : command.isUniversal = true) :
    (s.configured o).perform command = (s.perform command).map (·.configured o) := by
  cases command with
  | load e quads =>
      simp only [perform, load, ensureOpen_configured, loaded_configured]
      cases s.ensureOpen <;> rfl
  | replace e predicate values graph locale =>
      have hadmit : (s.configured o).admitReplace predicate = s.admitReplace predicate := rfl
      simp only [perform, replaceValues, hadmit]
      cases s.admitReplace predicate with
      | error refusal => rfl
      | ok p => exact congrArg Except.ok (replaced_configured s o e p values graph locale)
  | delete e policy =>
      simp only [perform, delete, ensureOpen_configured, deleted_configured]
      cases s.ensureOpen <;> rfl
  | reset => exact reset_configured s o
  | takeChanges => exact congrArg Except.ok (takeChanges_configured s o)
  | dispose => exact congrArg Except.ok (dispose_configured s o)
  | rollback | setThreadSafe _ | setTracking _ => cases hcommand

theorem step_configured {command : Command} (hcommand : command.isUniversal = true) :
    (s.configured o).step command = (s.step command).configured o := by
  unfold step
  rw [perform_configured s o hcommand]
  cases s.perform command <;> rfl

theorem run_configured {commands : List Command}
    (hcommands : ∀ command ∈ commands, command.isUniversal = true) :
    (s.configured o).run commands = (s.run commands).configured o := by
  induction commands generalizing s with
  | nil => rfl
  | cons command rest ih =>
      rw [List.forall_mem_cons] at hcommands
      have hfirst := step_configured s o hcommands.1
      change ((s.configured o).step command).run rest = ((s.step command).run rest).configured o
      rw [hfirst, ih _ hcommands.2]

/-! ## Comparing two sessions -/

/-- The sessions give the same answers about their quads, the entities that were loaded
and the references to blank nodes. -/
structure AnswersAlike (s t : Session) : Prop where
  quads : s.quads = t.quads
  ownedBy : ∀ e, s.ownedBy e = t.ownedBy e
  valuesFor : ∀ e predicate graph, s.valuesFor e predicate graph = t.valuesFor e predicate graph
  isLoaded : ∀ e, s.isLoaded e = t.isLoaded e
  hasOwner : ∀ e, s.hasOwner e = t.hasOwner e
  referenceCount : ∀ node, s.referenceCount node = t.referenceCount node

/-- The sessions give the same answers about their changes. -/
structure LogsAlike (s t : Session) : Prop where
  changes : s.changes = t.changes
  settled : s.log.settled = t.log.settled
  hasChanges : s.hasChanges = t.hasChanges

variable {s o} {first second : Options}

theorem answersAlike_configured :
    (s.configured first).AnswersAlike (s.configured second) where
  quads := rfl
  ownedBy _ := rfl
  valuesFor _ _ _ := rfl
  isLoaded _ := rfl
  hasOwner _ := rfl
  referenceCount _ := rfl

theorem logsAlike_configured (hfirst : first.tracking = true) (hsecond : second.tracking = true) :
    (s.configured first).LogsAlike (s.configured second) := by
  constructor <;> simp only [configured, changes, hasChanges, hfirst, hsecond] <;> rfl

theorem log_configured_of_not_tracking (h : o.tracking = false) :
    (s.configured o).log = .new o.threadSafe := by
  simp [configured, h]

theorem refused_configured {command : Command} (hcommand : command.isUniversal = true)
    {refusal : Refusal} :
    (s.configured o).perform command = .error refusal ↔ s.perform command = .error refusal := by
  rw [perform_configured s o hcommand]
  cases s.perform command <;> simp [Except.map]

/-- The options do not matter in a run of commands that are permitted alike.  At each
time, two sessions that were set up differently refuse the next command for the same
cause or both carry it out, and give the same answers.  If both track their changes,
their logs agree, and a session that does not track its changes has logged none. -/
theorem run_answersAlike (first second : Options) {commands : List Command}
    (hcommands : ∀ command ∈ commands, command.isUniversal = true) (n : Nat) :
    let s := (start first).run (commands.take n)
    let t := (start second).run (commands.take n)
    (∀ command, commands[n]? = some command → ∀ refusal,
      s.perform command = .error refusal ↔ t.perform command = .error refusal) ∧
    s.AnswersAlike t ∧
    (first.tracking = true → second.tracking = true → s.LogsAlike t) ∧
    (first.tracking = false → s.log = .new first.threadSafe) := by
  intro s t
  have hearlier : ∀ command ∈ commands.take n, command.isUniversal = true :=
    fun command h => hcommands command (List.mem_of_mem_take h)
  let usual := (start {}).run (commands.take n)
  have hrun (o : Options) : (start o).run (commands.take n) = usual.configured o := by
    rw [← start_configured, run_configured _ _ hearlier]
  have hs : s = usual.configured first := hrun first
  have ht : t = usual.configured second := hrun second
  rw [hs, ht]
  refine ⟨fun command hnext refusal => ?_, answersAlike_configured, logsAlike_configured,
    log_configured_of_not_tracking⟩
  have huniversal := hcommands command (List.mem_of_getElem? hnext)
  rw [refused_configured huniversal, refused_configured huniversal]

open Sample in
/-- The address of a person is replaced by a street and the person deleted, once in a
session for a single thread that does not track its changes and once in one for several
threads that does. -/
theorem run_answersAlike_person :
    let commands : List Command :=
      [.load (.iri person) [fact (.iri person) livesAt (.blank address)],
        .replace (.iri person) (.ofTerm (.iri livesAt)) [.ofTerm (.blank street)] none none,
        .takeChanges, .delete (.iri person) ⟨true, true⟩, .reset, .dispose,
        .load (.iri person) []]
    (∀ command ∈ commands, command.isUniversal = true) ∧
      ∀ n : Nat,
        let s := (start ⟨false, false⟩).run (commands.take n)
        let t := (start ⟨true, true⟩).run (commands.take n)
        (∀ command, commands[n]? = some command → ∀ refusal,
          s.perform command = .error refusal ↔ t.perform command = .error refusal) ∧
        s.AnswersAlike t ∧ s.log = .new false := by
  intro commands
  have hcommands : ∀ command ∈ commands, command.isUniversal = true := by
    intro command h
    simp only [commands, List.mem_cons, List.not_mem_nil, or_false] at h
    rcases h with rfl | rfl | rfl | rfl | rfl | rfl | rfl <;> rfl
  refine ⟨hcommands, fun n => ?_⟩
  obtain ⟨hoptions, hanswers, -, hlog⟩ :=
    run_answersAlike ⟨false, false⟩ ⟨true, true⟩ hcommands n
  exact ⟨hoptions, hanswers, hlog rfl⟩

end Session

end QuadSession

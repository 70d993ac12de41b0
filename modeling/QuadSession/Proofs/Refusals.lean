import QuadSession.Proofs.InPlace
import QuadSession.Proofs.Sample

/-!
# When operations are refused

A session refuses an operation for one of five causes, each of which can be told from the
session before the operation starts.  This file shows that there are no other causes, that
a refused operation leaves the session as it was even though it works in place, and that a
closed session stays empty.

## Strategy

That nothing is altered before a refusal is the subject of `QuadSession.Proofs.InPlace`.
What is left is to compare the checks with the causes, operation by operation.  A closed
session has let go of everything and is not altered by any command any more, so a run from
it stays where it is.

## Main definitions

* `Session.Bars`: the causes for which a session refuses a command.
* `Session.Vacant`: every listing of the session is empty, and nothing is counted.

## Main statements

* `Session.perform_eq_error_iff`: a command is refused exactly for its causes.
* `Session.carryOut_refused`: refusals as they show in place, and after the end of a
  session.
-/

namespace QuadSession

/-- The commands that a closed session refuses. -/
def Command.needsOpen : Command → Bool
  | .takeChanges | .dispose => false
  | _ => true

namespace Session

/-- The session refuses a command, and why.  That it was closed comes before all other
causes. -/
inductive Bars (s : Session) : Command → Refusal → Prop
  | closed {command : Command} (hclosed : s.closed = true)
      (hcommand : command.needsOpen = true) : Bars s command (.obstacle .closed)
  | literal {e : Entity} {predicate : Node} {values : List Node} {graph : Option Node}
      {locale : Option Locale} (hlive : s.closed = false)
      (hpredicate : predicate.term.isLiteral = true) :
      Bars s (.replace e predicate values graph locale) (.kind ⟨[.iri, .blank], .literal⟩)
  | noBaseline (hlive : s.closed = false) (htracking : s.isTracking = false) :
      Bars s .rollback (.obstacle .noBaseline)
  | modeLocked {threadSafe : Bool} (hlive : s.closed = false)
      (hmode : s.isThreadSafe ≠ threadSafe) (hdata : s.quads ≠ [] ∨ s.changes ≠ []) :
      Bars s (.setThreadSafe threadSafe) (.obstacle .modeLocked)
  | trackingLocked {tracking : Bool} (hlive : s.closed = false)
      (htracking : s.isTracking ≠ tracking) (hquads : s.quads ≠ []) :
      Bars s (.setTracking tracking) (.obstacle .trackingLocked)

variable {s t : Session} {command : Command} {refusal : Refusal}

/-! ## The checks and the causes -/

theorem ensureOpen_bind_of_closed {α : Type} (h : s.closed = true)
    (rest : Unit → Except Refusal α) : s.ensureOpen >>= rest = .error (.obstacle .closed) := by
  rw [ensureOpen, if_pos h]
  rfl

theorem ensureOpen_of_live (h : s.closed = false) : s.ensureOpen = .ok () := by
  rw [ensureOpen, h]
  rfl

theorem log_isEmpty_iff : s.log.isEmpty = true ↔ s.changes = [] := by
  rw [ChangeLog.isEmpty, beq_iff_eq, ← ChangeLog.length_changes, List.length_eq_zero_iff]
  rfl

theorem holdsData_iff : s.holdsData = true ↔ s.quads ≠ [] ∨ s.changes ≠ [] := by
  rw [holdsData, Bool.or_eq_true, Bool.not_eq_true', Bool.not_eq_true', ← Bool.not_eq_true,
    ← Bool.not_eq_true, isEmpty_iff, log_isEmpty_iff]

theorem admitReplace_of_closed (h : s.closed = true) (predicate : Node) :
    s.admitReplace predicate = .error (.obstacle .closed) :=
  ensureOpen_bind_of_closed h _

theorem admitReplace_of_isLiteral (h : s.closed = false) {predicate : Node}
    (hpredicate : predicate.term.isLiteral = true) :
    s.admitReplace predicate = .error (.kind ⟨[.iri, .blank], .literal⟩) := by
  rw [admitReplace, ensureOpen_of_live h, Predicate.ofNode_of_isLiteral hpredicate]
  rfl

/-- What stands in the way of a replacement is found before any value is looked at. -/
theorem Bars.admitReplace_eq {e : Entity} {predicate : Node} {values : List Node}
    {graph : Option Node} {locale : Option Locale}
    (h : s.Bars (.replace e predicate values graph locale) refusal) :
    s.admitReplace predicate = .error refusal := by
  cases h with
  | closed hclosed _ => exact admitReplace_of_closed hclosed predicate
  | literal hlive hpredicate => exact admitReplace_of_isLiteral hlive hpredicate

theorem Bars.perform_eq (h : s.Bars command refusal) :
    s.perform command = .error refusal := by
  cases h with
  | closed hclosed hcommand =>
      cases command with
      | replace e predicate values graph locale =>
          simp only [perform, replaceValues, admitReplace_of_closed hclosed]
          rfl
      | takeChanges | dispose => cases hcommand
      | _ => exact ensureOpen_bind_of_closed hclosed _
  | literal hlive hpredicate =>
      simp only [perform, replaceValues, admitReplace_of_isLiteral hlive hpredicate]
      rfl
  | noBaseline hlive htracking =>
      have hnone : s.baseline = none := by
        rw [isTracking, Option.isSome_eq_false_iff, Option.isNone_iff_eq_none] at htracking
        exact htracking
      simp only [perform, rollback, ensureOpen_of_live hlive, hnone]
      rfl
  | modeLocked hlive hmode hdata =>
      simp only [perform, setThreadSafe, ensureOpen_of_live hlive, if_neg hmode,
        holdsData_iff.mpr hdata, if_true]
      rfl
  | trackingLocked hlive htracking hquads =>
      have hfull : s.isEmpty = false := Bool.eq_false_iff.mpr (mt isEmpty_iff.mp hquads)
      simp only [perform, setTracking, ensureOpen_of_live hlive, if_neg htracking, hfull]
      rfl

/-- A command for which there is no cause to refuse it is carried out. -/
theorem exists_bars_or_eq_ok (s : Session) (command : Command) :
    (∃ refusal, s.Bars command refusal) ∨ ∃ t, s.perform command = .ok t := by
  cases hlive : s.closed with
  | true =>
      cases hcommand : command.needsOpen with
      | true => exact .inl ⟨_, .closed hlive hcommand⟩
      | false => cases command <;> first | exact .inr ⟨_, rfl⟩ | cases hcommand
  | false =>
      cases command with
      | load e quads => exact .inr ⟨_, load_eq_ok.mpr ⟨hlive, rfl⟩⟩
      | replace e predicate values graph locale =>
          cases hpredicate : predicate.term.isLiteral with
          | true => exact .inl ⟨_, .literal hlive hpredicate⟩
          | false => exact .inr ⟨_, replace_eq_ok.mpr ⟨hlive, ⟨predicate, hpredicate⟩, rfl, rfl⟩⟩
      | delete e policy => exact .inr ⟨_, delete_eq_ok.mpr ⟨hlive, rfl⟩⟩
      | reset => exact .inr ⟨_, reset_eq_ok.mpr ⟨hlive, rfl⟩⟩
      | rollback =>
          cases hbaseline : s.baseline with
          | none => exact .inl ⟨_, .noBaseline hlive (by rw [isTracking, hbaseline]; rfl)⟩
          | some b => exact .inr ⟨_, rollback_eq_ok.mpr ⟨hlive, b, hbaseline, rfl⟩⟩
      | takeChanges | dispose => exact .inr ⟨_, rfl⟩
      | setThreadSafe threadSafe =>
          by_cases hmode : s.isThreadSafe = threadSafe
          · exact .inr ⟨s, setThreadSafe_eq_ok.mpr ⟨hlive, .inl ⟨hmode, rfl⟩⟩⟩
          · cases hdata : s.holdsData with
            | true => exact .inl ⟨_, .modeLocked hlive hmode (holdsData_iff.mp hdata)⟩
            | false => exact .inr (exists_setThreadSafe_eq_ok hlive hdata threadSafe)
      | setTracking tracking =>
          by_cases htracking : s.isTracking = tracking
          · refine .inr ⟨s, ?_⟩
            simp only [perform, setTracking, ensureOpen_of_live hlive, if_pos htracking]
            rfl
          · cases hempty : s.isEmpty with
            | true =>
                let baseline := if tracking then some (Baseline.new s.isThreadSafe) else none
                refine .inr ⟨{ s with baseline, log := s.log.clear }, ?_⟩
                simp only [perform, setTracking, ensureOpen_of_live hlive, if_neg htracking, hempty]
                rfl
            | false =>
                have hquads : s.quads ≠ [] := mt isEmpty_iff.mpr (Bool.eq_false_iff.mp hempty)
                exact .inl ⟨_, .trackingLocked hlive htracking hquads⟩

/-- A command is refused exactly for its causes. -/
theorem perform_eq_error_iff : s.perform command = .error refusal ↔ s.Bars command refusal := by
  refine ⟨fun hrefused => ?_, Bars.perform_eq⟩
  rcases exists_bars_or_eq_ok s command with ⟨cause, hcause⟩ | ⟨t, ht⟩
  · have hsame : Except.error cause = Except.error refusal :=
      hcause.perform_eq.symm.trans hrefused
    cases hsame
    exact hcause
  · rw [ht] at hrefused
    cases hrefused

/-! ## After the end of a session -/

/-- Every listing of the session is empty, every entity is absent, and nothing is
counted. -/
structure Vacant (s : Session) : Prop where
  size : s.size = 0
  quads : s.quads = []
  ownedBy : ∀ e, s.ownedBy e = []
  valuesFor : ∀ e predicate graph, s.valuesFor e predicate graph = []
  hasOwner : ∀ e, s.hasOwner e = false
  isLoaded : ∀ e, s.isLoaded e = false
  referenceCount : ∀ b, s.referenceCount (.blank b) = .ok 0
  changes : s.changes = []
  forGraph : ∀ graph, s.log.forGraph graph = []
  settled : s.log.settled = []
  hasChanges : s.hasChanges = false
  takeChanges : s.takeChanges.1 = []

/-- The session is closed and has let go of everything. -/
structure Released (s : Session) : Prop where
  closed : s.closed = true
  contents : ∃ mode, s.contents = .new mode
  log : ∃ mode, s.log = .new mode

theorem released_dispose (hlive : s.closed = false) : s.dispose.Released := by
  rw [dispose, hlive]
  exact ⟨rfl, ⟨_, rfl⟩, ⟨_, rfl⟩⟩

namespace Released

theorem vacant (h : s.Released) : s.Vacant := by
  obtain ⟨contents, log, baseline, closed⟩ := s
  obtain ⟨-, ⟨mode, rfl⟩, ⟨mode', rfl⟩⟩ := h
  constructor <;> intros <;> rfl

/-- A session that has let go of everything is not altered any more. -/
theorem step_eq (h : s.Released) (command : Command) : s.step command = s := by
  cases hcommand : command.needsOpen with
  | true => exact step_eq_of_refused (Bars.closed h.closed hcommand).perform_eq
  | false =>
      cases command with
      | takeChanges =>
          obtain ⟨contents, log, baseline, closed⟩ := s
          obtain ⟨mode, rfl⟩ := h.log
          rfl
      | dispose => exact step_eq_of_perform (congrArg Except.ok (if_pos h.closed))
      | _ => cases hcommand

theorem run_eq (h : s.Released) (commands : List Command) : s.run commands = s := by
  induction commands with
  | nil => rfl
  | cons command rest ih =>
      change (s.step command).run rest = s
      rw [h.step_eq, ih]

end Released

/-- Only its end closes a session. -/
theorem closed_of_perform (ht : s.perform command = .ok t) (hcommand : command ≠ .dispose) :
    t.closed = s.closed := by
  cases command with
  | load e quads =>
      obtain ⟨-, rfl⟩ := load_eq_ok.mp ht
      exact closed_loaded s e quads
  | replace e predicate values graph locale =>
      obtain ⟨-, p, -, rfl⟩ := replace_eq_ok.mp ht
      rfl
  | delete e policy =>
      obtain ⟨-, rfl⟩ := delete_eq_ok.mp ht
      rfl
  | reset =>
      obtain ⟨-, rfl⟩ := reset_eq_ok.mp ht
      rfl
  | rollback =>
      obtain ⟨-, b, -, rfl⟩ := rollback_eq_ok.mp ht
      rfl
  | takeChanges =>
      cases ht
      rfl
  | setThreadSafe threadSafe =>
      obtain ⟨-, ⟨-, rfl⟩ | ⟨-, -, log, -, rfl⟩⟩ := setThreadSafe_eq_ok.mp ht <;> rfl
  | setTracking tracking =>
      obtain ⟨-, rfl | ⟨-, rfl⟩⟩ := setTracking_eq_ok ht <;> rfl
  | dispose => exact absurd rfl hcommand

theorem released_step (h : s.closed = true → s.Released) (command : Command)
    (hclosed : (s.step command).closed = true) : (s.step command).Released := by
  cases hbefore : s.closed with
  | true => exact ((h hbefore).step_eq command).symm ▸ h hbefore
  | false =>
      cases hperform : s.perform command with
      | error refusal =>
          rw [step_eq_of_refused hperform, hbefore] at hclosed
          cases hclosed
      | ok t =>
          rw [step_eq_of_perform hperform] at hclosed ⊢
          by_cases hcommand : command = .dispose
          · subst hcommand
            cases hperform
            exact released_dispose hbefore
          · rw [closed_of_perform hperform hcommand, hbefore] at hclosed
            cases hclosed

/-- A session that was closed in a run has let go of everything. -/
theorem released_run (h : s.closed = true → s.Released) (commands : List Command)
    (hclosed : (s.run commands).closed = true) : (s.run commands).Released := by
  induction commands generalizing s with
  | nil => exact h hclosed
  | cons command rest ih => exact ih (released_step h command) hclosed

theorem released_of_closed {options : Options} {commands : List Command}
    (hs : (start options).run commands = s) (hclosed : s.closed = true) : s.Released := by
  subst hs
  exact released_run (fun h => Bool.noConfusion h) commands hclosed

/-- From its end on, a session stays empty. -/
theorem vacant_run_dispose {options : Options} {commands : List Command}
    (hs : (start options).run commands = s) (later : List Command) :
    (s.dispose.run later).Vacant := by
  have hreleased : s.dispose.Released := by
    cases hclosed : s.closed with
    | true =>
        rw [dispose, if_pos hclosed]
        exact released_of_closed hs hclosed
    | false => exact released_dispose hclosed
  rw [hreleased.run_eq later]
  exact hreleased.vacant

/-! ## Refusals in place -/

theorem carryOut_eq_error_iff (h : s.contents.Consistent) :
    command.carryOut.run s = .error refusal t ↔ s.Bars command refusal ∧ t = s := by
  rw [Command.carryOut, command.run_carryOutWith h, ← perform_eq_error_iff]
  cases s.perform command <;> simp [InPlace.outcome, eq_comm]

theorem carryOut_eq_ok_iff (h : s.contents.Consistent) :
    command.carryOut.run s = .ok () t ↔ s.perform command = .ok t := by
  rw [Command.carryOut, command.run_carryOutWith h]
  cases s.perform command <;> simp [InPlace.outcome]

/-- Carried out in place, a command fails exactly for the causes that bar it, and it then
leaves the session as it was; if it does not fail, it does what the command does.  A
replacement that is refused does not compute the new values.  From its end on, a session
stays empty whatever is done with it. -/
theorem carryOut_refused {options : Options} {commands : List Command}
    (hs : (start options).run commands = s) :
    (∀ command refusal t,
      command.carryOut.run s = .error refusal t ↔ s.Bars command refusal ∧ t = s) ∧
    (∀ command t, command.carryOut.run s = .ok () t ↔ s.perform command = .ok t) ∧
    (∀ e predicate news graph locale refusal,
      s.Bars (.replace e predicate news graph locale) refusal →
      ∀ {m : Type → Type} [Monad m] (values : m (List Node)),
        s.replaceValues e predicate values graph locale = pure (.error refusal) ∧
        InPlace.replace e predicate values graph locale s = pure (.error refusal s)) ∧
    ∀ later, (s.dispose.run later).Vacant := by
  have h : s.contents.Consistent := (hs ▸ consistent_run options commands).contents
  refine ⟨fun _ _ _ => carryOut_eq_error_iff h, fun _ _ => carryOut_eq_ok_iff h, ?_,
    vacant_run_dispose hs⟩
  intro e predicate news graph locale refusal hbars m _ values
  have hrefused := hbars.admitReplace_eq
  constructor
  · rw [replaceValues, hrefused]
  · rw [InPlace.replace, InPlace.replaceWith, InPlace.clearValues_of_refused hrefused]

open Sample in
/-- While the address of a person is held, the tracking of changes cannot be switched off.
A literal is no predicate, so the new values of a replacement are not computed, which would
be counted. -/
theorem carryOut_refused_person :
    let s := (start {}).run [.load (.iri person) [fact (.iri person) livesAt (.blank address)]]
    let predicate := Node.ofTerm (.literal (.plain "lives at"))
    let values : StateM Nat (List Node) := do
      modify (· + 1)
      return []
    (Command.setTracking false).carryOut.run s = .error (.obstacle .trackingLocked) s ∧
      s.replaceValues (.iri person) predicate values none none =
        pure (.error (.kind ⟨[.iri, .blank], .literal⟩)) ∧
      ∀ later, (s.dispose.run later).Vacant := by
  intro s predicate values
  obtain ⟨hrefused, -, hvalues, hvacant⟩ := carryOut_refused (s := s) rfl
  have hlive : s.closed = false := by decide
  have hquads : s.quads ≠ [] := mt isEmpty_iff.mpr (by decide)
  refine ⟨(hrefused _ _ _).mpr ⟨.trackingLocked hlive (by decide) hquads, rfl⟩, ?_, hvacant⟩
  exact (hvalues _ _ [] _ _ _ (.literal hlive rfl) values).1

end Session

end QuadSession

import QuadSession.Session.Command

/-!
# Operations that succeed

Every operation of a session makes its checks first and then does something that
cannot fail.  Each statement of this file says for one operation when it
succeeds and to which session it then leads, so that nothing else has to look at
how the checks are made.  A step of a run follows an operation that succeeds and
leaves the session alone if the operation is refused.
-/

namespace QuadSession.Session

section

variable {ε ε' α : Type} (f : ε → ε')

theorem mapError_ok (a : α) : (Except.ok a).mapError f = .ok a := rfl

theorem mapError_error (e : ε) : (Except.error e : Except ε α).mapError f = .error (f e) := rfl

end

variable {s t : Session}

theorem load_eq_ok {e : Entity} {quads : List Quad} :
    s.load e quads = .ok t ↔ s.closed = false ∧ s.loaded e quads = t := by
  unfold load ensureOpen
  cases s.closed <;> simp [bind, Except.bind, pure, Except.pure]

theorem admitReplace_eq_ok {predicate : Node} {p : Predicate} :
    s.admitReplace predicate = .ok p ↔ s.closed = false ∧ p.node = predicate := by
  unfold admitReplace ensureOpen
  rw [← Predicate.ofNode_eq_ok]
  cases s.closed <;> cases Predicate.ofNode predicate <;>
    simp [bind, Except.bind, mapError_ok, mapError_error]

theorem replace_eq_ok {e : Entity} {predicate : Node} {values : List Node} {graph : Option Node}
    {locale : Option Locale} :
    s.perform (.replace e predicate values graph locale) = .ok t ↔
      s.closed = false ∧ ∃ p : Predicate, p.node = predicate ∧
        s.replaced e p values graph locale = t := by
  have hcases : s.perform (.replace e predicate values graph locale) = .ok t ↔
      ∃ p, s.admitReplace predicate = .ok p ∧ s.replaced e p values graph locale = t := by
    simp only [perform, replaceValues]
    cases s.admitReplace predicate <;> simp [Id.run, pure, bind]
  rw [hcases]
  simp only [admitReplace_eq_ok, and_assoc, exists_and_left]

theorem delete_eq_ok {e : Entity} {policy : DeletePolicy} :
    s.delete e policy = .ok t ↔ s.closed = false ∧ s.deleted e policy = t := by
  unfold delete ensureOpen
  cases s.closed <;> simp [bind, Except.bind, pure, Except.pure]

theorem reset_eq_ok :
    s.reset = .ok t ↔ s.closed = false ∧
      { s with
        baseline := s.baseline.map fun _ => .ofContents s.contents
        log := s.log.clear } = t := by
  unfold reset ensureOpen
  cases s.closed <;> simp [bind, Except.bind, pure, Except.pure]

theorem rollback_eq_ok :
    s.rollback = .ok t ↔ s.closed = false ∧ ∃ b, s.baseline = some b ∧
      { s with contents := b.restore, log := s.log.clear } = t := by
  unfold rollback ensureOpen
  cases s.closed <;> cases s.baseline <;> simp [bind, Except.bind, pure, Except.pure]

/-- Switching the mode changes nothing if it is the mode already.  Else it succeeds
while there is no data, and the datasets start anew. -/
theorem setThreadSafe_eq_ok {threadSafe : Bool} :
    s.setThreadSafe threadSafe = .ok t ↔ s.closed = false ∧
      (s.isThreadSafe = threadSafe ∧ s = t ∨
        s.isThreadSafe ≠ threadSafe ∧ s.holdsData = false ∧ ∃ log,
          s.log.setThreadSafe threadSafe = .ok log ∧
            { s with
              contents := { s.contents with quads := .new threadSafe }
              baseline := s.baseline.map fun _ => .new threadSafe
              log } = t) := by
  unfold setThreadSafe ensureOpen
  cases s.closed <;> cases s.holdsData <;> cases s.log.setThreadSafe threadSafe <;>
    by_cases hmode : s.isThreadSafe = threadSafe <;>
    simp [hmode, bind, Except.bind, pure, Except.pure, mapError_ok, mapError_error]

theorem isEmpty_iff : s.isEmpty = true ↔ s.quads = [] := by
  rw [← List.isEmpty_iff]
  exact iff_of_eq (congrArg (· = true) Std.TreeSet.isEmpty_toList.symm)

/-- While a session holds no data, the mode of its log can be switched. -/
theorem exists_log_setThreadSafe_eq_ok (hdata : s.holdsData = false) (threadSafe : Bool) :
    ∃ log, s.log.setThreadSafe threadSafe = .ok log := by
  have hempty : s.log.isEmpty = true := by
    rw [holdsData, Bool.or_eq_false_iff, Bool.not_eq_false'] at hdata
    simpa using hdata.2
  rw [ChangeLog.setThreadSafe, if_pos hempty]
  split <;> exact ⟨_, rfl⟩

/-- While a live session holds no data, its mode can be switched. -/
theorem exists_setThreadSafe_eq_ok (hlive : s.closed = false) (hdata : s.holdsData = false)
    (threadSafe : Bool) : ∃ t, s.setThreadSafe threadSafe = .ok t := by
  by_cases hmode : s.isThreadSafe = threadSafe
  · exact ⟨s, setThreadSafe_eq_ok.mpr ⟨hlive, .inl ⟨hmode, rfl⟩⟩⟩
  · obtain ⟨log, hlog⟩ := exists_log_setThreadSafe_eq_ok hdata threadSafe
    exact ⟨_, setThreadSafe_eq_ok.mpr ⟨hlive, .inr ⟨hmode, hdata, log, hlog, rfl⟩⟩⟩

theorem setTracking_eq_ok {tracking : Bool} (ht : s.setTracking tracking = .ok t) :
    s.closed = false ∧ (s = t ∨ s.isEmpty = true ∧
      { s with
        baseline := if tracking then some (.new s.isThreadSafe) else none
        log := s.log.clear } = t) := by
  unfold setTracking ensureOpen at ht
  cases hclosed : s.closed <;> cases hempty : s.isEmpty <;>
    by_cases hmode : s.isTracking = tracking <;>
    simp_all [bind, Except.bind, pure, Except.pure]

/-! ## Steps and runs -/

section

variable {command : Command}

theorem step_eq_of_perform (h : s.perform command = .ok t) : s.step command = t := by
  rw [step, h]

theorem step_eq_of_refused {refusal : Refusal} (h : s.perform command = .error refusal) :
    s.step command = s := by
  rw [step, h]

end

end QuadSession.Session

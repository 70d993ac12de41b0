import QuadSession.Proofs.Copies
import QuadSession.Proofs.Replacing
import QuadSession.Proofs.Sample
import QuadSession.Session.InPlace

/-!
# Programs that fail before they alter anything

The programs of `QuadSession.Session.InPlace` alter a session piece by piece, and many of
their steps could fail with the session half altered.  This file shows that none of them
does: after its checks a program runs to its end, and it leads to the session to which the
operation leads.

## Strategy

Each step that could fail is guarded.  References are counted only of blank nodes, a quad
is made with a predicate that was accepted, and the log is switched when it was found
empty.  So a step comes to a total function of the state, and the loops come to the
functions on lists by which the operations are defined.

Two loops take references back one by one, and they are followed for every way to do so.
All that is known of such a way is what it does to a positive count.  It is enough, since
the references that a loop takes back were all counted when it starts and those that are
left are counted after each step (`run_forM_recount`).  So a program never comes to take
back a reference that is not counted: it would otherwise end differently where this is
made to fail.

One of the two loops withdraws the quads whose values are replaced, without a look whether
they are there.  This is right because the indices hold nothing twice and nothing that is
not in the session.

## Main statements

* `run_cascade`: a cascade of calls is a sweep.
* `Command.run_carryOutWith`: a program fails with the session as it was, or leads to the
  session to which the command leads, whichever way it takes references back.
* `replaceWith_eq`: the same for a replacement, however its new values are computed.
* `Session.referenceCount_run`: the counts are right, and every reference that is taken
  back was counted, over every history.
-/

namespace QuadSession

namespace InPlace

/-- How a program ends that fails only before it alters anything. -/
def outcome (s : Session) : Except Refusal Session → EStateM.Result Refusal Session Unit
  | .ok t => .ok () t
  | .error refusal => .error refusal s

/-! ## Single steps -/

section

variable {σ β : Type} {s t : σ} {g : σ → σ} {refusal : Refusal}

theorem run_get_bind {f : σ → InPlace σ β} : (get >>= f).run s = (f s).run s := rfl

theorem run_set_bind {f : PUnit → InPlace σ β} : (set t >>= f).run s = (f ()).run t := rfl

theorem run_modify_bind {f : PUnit → InPlace σ β} :
    (modify g >>= f).run s = (f ()).run (g s) := rfl

theorem run_accept {α : Type} {a : α} : (accept (.ok a)).run s = .ok a s := rfl

theorem run_check_of_ok {permitted : σ → Except Refusal Unit} (h : permitted s = .ok ()) :
    (check permitted).run s = .ok () s := by
  unfold check
  rw [run_get_bind, h]
  rfl

theorem run_check_of_error {permitted : σ → Except Refusal Unit}
    (h : permitted s = .error refusal) : (check permitted).run s = .error refusal s := by
  unfold check
  rw [run_get_bind, h]
  rfl

end

/-- An operation that starts with the check whether the session is open ends well if what
comes after the check does. -/
theorem run_check_bind {s : Session} {body : InPlace Session Unit} {after : Except Refusal Session}
    (h : body.run s = outcome s after) :
    (check Session.ensureOpen >>= fun _ => body).run s =
      outcome s (s.ensureOpen >>= fun _ => after) := by
  cases hopen : s.ensureOpen with
  | error refusal => exact bind_of_error (run_check_of_error hopen)
  | ok _ => exact (bind_of_ok (run_check_of_ok hopen)).trans h

theorem run_onContents {α : Type} {program : InPlace Contents α} {s : Session} {a : α}
    {c : Contents} (h : program.run s.contents = .ok a c) :
    (onContents program).run s = .ok a { s with contents := c } := by
  simp only [EStateM.run, onContents] at h ⊢
  rw [h]

/-! ## Counting one by one -/

theorem run_increment (q : Quad) (c : Contents) :
    (recount (fun t b => .ok (t.increment b)) q).run c =
      .ok () { c with tally := c.tally.retain q } := by
  rw [run_recount]
  unfold Tally.retain
  cases q.object.term.blank? <;> rfl

/-- A reference that was counted is taken back, whichever way. -/
theorem run_takeBack (takeBack : TakeBack) {q : Quad} {rest : List Quad} {c : Contents}
    (h : c.tally.Covers (q :: rest)) :
    (recount takeBack.apply q).run c = .ok () { c with tally := c.tally.release q } := by
  rw [run_recount]
  unfold Tally.release
  cases hobject : q.object.term.blank? with
  | none => rfl
  | some blank =>
      have hpos : 0 < c.tally.count blank := h.pos (Term.blank?_eq_some.mp hobject)
      simp only [takeBack.apply_of_pos c.tally blank hpos]

open Sample in
/-- If it was not counted, it depends on the way what happens. -/
example : let q := fact (.iri person) livesAt (.blank address)
    (recount (TakeBack.strict (.obstacle .closed)).apply q).run (.new false) =
      .error (.obstacle .closed) (.new false) := rfl

theorem run_forM_recount (takeBack : TakeBack) {quads : List Quad} {c : Contents}
    (h : c.tally.Covers quads) :
    (forM quads (recount takeBack.apply)).run c =
      .ok () { c with tally := c.tally.releaseAll quads } := by
  induction quads generalizing c with
  | nil => rfl
  | cons q rest ih =>
      rw [List.forM_cons, bind_of_ok (run_takeBack takeBack h), ih h.release]
      rfl

theorem run_enter (q : Quad) (c : Contents) :
    (enter q).run c = .ok (c.quads.add q).1 (c.add [q]).2 := by
  unfold enter
  rw [run_get_bind]
  cases hnew : c.quads.add q with
  | mk isNew quads =>
      cases isNew
      · simp only [Contents.add, Dataset.addAll, hnew]
        rfl
      · simp only [Contents.add, Dataset.addAll, hnew]
        rw [run_set_bind]
        exact bind_of_ok (run_increment q _)

theorem add_cons (c : Contents) (q : Quad) (rest : List Quad) :
    c.add (q :: rest) =
      (if (c.quads.add q).1 then q :: ((c.add [q]).2.add rest).1 else ((c.add [q]).2.add rest).1,
        ((c.add [q]).2.add rest).2) := by
  simp only [Contents.add, Dataset.addAll]
  cases (c.quads.add q).1 <;> rfl

/-! ## Loading -/

/-- The session after some quads were taken in. -/
def entered (s : Session) (quads : List Quad) : Session :=
  { s with
    contents := (s.contents.add quads).2
    baseline := s.baseline.map fun b =>
      { b with quads := (b.quads.addAll (s.contents.add quads).1).2 } }

theorem entered_nil (s : Session) : entered s [] = s := by
  obtain ⟨contents, log, baseline, closed⟩ := s
  cases baseline <;> rfl

theorem fst_add_singleton (c : Contents) (q : Quad) :
    (c.add [q]).1 = if (c.quads.add q).1 then [q] else [] := by
  simp only [Contents.add, Dataset.addAll]

theorem entered_cons (s : Session) (q : Quad) (rest : List Quad) :
    entered s (q :: rest) = entered (entered s [q]) rest := by
  unfold entered
  rw [add_cons]
  simp only [fst_add_singleton, Option.map_map]
  cases (s.contents.quads.add q).1 <;> rfl

theorem run_takeIn (q : Quad) (s : Session) : (takeIn q).run s = .ok () (entered s [q]) := by
  unfold takeIn
  rw [bind_of_ok (run_onContents (run_enter q s.contents))]
  unfold entered
  rw [fst_add_singleton]
  cases (s.contents.quads.add q).1
  · cases s.baseline <;> rfl
  · rfl

theorem run_forM_takeIn (quads : List Quad) (s : Session) :
    (forM quads takeIn).run s = .ok () (entered s quads) := by
  induction quads generalizing s with
  | nil =>
      rw [entered_nil]
      rfl
  | cons q rest ih => rw [List.forM_cons, bind_of_ok (run_takeIn q s), ih, entered_cons s q rest]

theorem run_load (e : Entity) (quads : List Quad) (s : Session) :
    (load e quads).run s = outcome s (s.load e quads) := by
  unfold load Session.load
  refine run_check_bind ?_
  rw [run_get_bind]
  change _ = EStateM.Result.ok () (s.loaded e quads)
  unfold Session.loaded
  split
  · rfl
  · rw [bind_of_ok (run_forM_takeIn quads s)]
    unfold entered
    cases s.baseline <;> rfl

/-! ## The cascade -/

section

variable {c : Contents} (takeBack : TakeBack)

/-- All references that go with an entity are taken back before the entity is forgotten. -/
theorem run_detach (h : c.Consistent) (e : Entity) :
    (detach takeBack e).run c = .ok (c.detach e).1 (c.detach e).2 := by
  let own := c.quads.removeAll (c.quads.ownedBy e)
  let references :=
    own.2.removeAll (if e.isBlank then own.2.withObject e.toTerm else [])
  have hcovered : c.tally.Covers (own.1 ++ references.1) := h.covers_detach e
  have hcounts := run_forM_recount takeBack (c := { c with quads := references.2 }) hcovered
  exact bind_of_ok hcounts

/-- The calls that the removal of an entity leads to make the visits that it leads to. -/
theorem filterMap_following (e : Entity) (forced : Bool) (removed : List Quad) :
    (Call.following e forced removed).filterMap Call.visit? =
      Visit.following e forced removed := by
  unfold Call.following Visit.following
  rw [List.filterMap_filterMap]
  refine congrArg (List.filterMap · removed) (funext fun q => ?_)
  by_cases h : q.object.isBlank = true ∧ q.object.term ≠ e.toTerm
  · obtain ⟨blank, hobject⟩ := Term.isBlank_iff.mp h.1
    have hother : Entity.blank blank ≠ e := fun heq => h.2 (by rw [hobject, ← heq]; rfl)
    rw [dif_pos h]
    simp [Call.visit?, hobject, Term.blank?, hother]
  · rw [dif_neg h]
    cases hobject : q.object.term with
    | blank blank =>
        have hself : Entity.blank blank = e := by
          by_contra hother
          refine h ⟨by rw [Node.isBlank, hobject]; rfl, fun heq => hother ?_⟩
          exact Entity.toTerm_injective (hobject.symm.trans heq)
        simp [Term.blank?, hself]
    | iri name => rfl
    | literal value => rfl

theorem forced_of_visit? {call : Call} {v : Visit} (h : call.visit? = some v) :
    call.forced = v.forced := by
  obtain ⟨blank, -, rfl⟩ := Option.map_eq_some_iff.mp h
  rfl

theorem removes?_of_visit? {call : Call} {v : Visit} (h : call.visit? = some v) :
    call.removes? c = if c.isDue v then some (.blank v.blank) else none := by
  rw [Call.removes?, h]

/-- No call fails, so the first one either passes or removes its entity. -/
theorem cascadeFrom_cons (h : c.Consistent) (call : Call) (rest : List Call) :
    cascadeFrom takeBack (call :: rest) c = match call.removes? c with
      | none => cascadeFrom takeBack rest c
      | some e =>
        match cascadeFrom takeBack (Call.following e call.forced (c.detach e).1 ++ rest)
            (c.detach e).2 with
        | .error refusal c => .error refusal c
        | .ok more c' => .ok (⟨e, (c.detach e).1⟩ :: more) c' := by
  rw [cascadeFrom]
  split
  next refusal c' htarget =>
    rw [Call.run_target] at htarget
    cases htarget
  next c' htarget =>
    rw [Call.run_target] at htarget
    injection htarget with hnone hsame
    rw [hnone, hsame]
  next e c' htarget =>
    rw [Call.run_target] at htarget
    injection htarget with hsome hsame
    rw [hsome, ← hsame]
    split
    next refusal c' hdetach =>
      rw [run_detach takeBack h] at hdetach
      cases hdetach
    next removed c' hdetach =>
      rw [run_detach takeBack h] at hdetach
      injection hdetach with hremoved hrest
      subst hremoved hrest
      rfl

theorem cascadeFrom_eq {c : Contents} (h : c.Consistent) (calls : List Call) :
    cascadeFrom takeBack calls c = .ok (c.sweep (calls.filterMap Call.visit?)).1
      (c.sweep (calls.filterMap Call.visit?)).2 := by
  match calls with
  | [] => simp only [cascadeFrom, List.filterMap_nil, Contents.sweep]
  | call :: rest =>
      rw [cascadeFrom_cons takeBack h]
      cases hvisit : call.visit? with
      | none =>
          -- a call for a node that is not blank makes no visit and is passed over
          have hpassed : call.removes? c = none := by rw [Call.removes?, hvisit]
          rw [hpassed, List.filterMap_cons_none hvisit]
          exact cascadeFrom_eq h rest
      | some v =>
          rw [List.filterMap_cons_some hvisit, Contents.sweep, removes?_of_visit? hvisit]
          by_cases hdue : c.isDue v = true
          · have hforced : call.forced = v.forced := forced_of_visit? hvisit
            have hlater := cascadeFrom_eq (h.detach (.blank v.blank))
              (Call.following (.blank v.blank) call.forced (c.detach (.blank v.blank)).1 ++ rest)
            rw [List.filterMap_append, filterMap_following, hforced] at hlater
            rw [if_pos hdue, if_pos hdue]
            simp only [hforced, hlater]
          · rw [if_neg hdue, if_neg hdue]
            exact cascadeFrom_eq h rest
termination_by (c.quads.size, calls.length)
decreasing_by
  · exact Prod.Lex.right _ (Nat.lt_succ_self _)
  · exact Call.following_lt _ call rest c
  · exact Prod.Lex.right _ (Nat.lt_succ_self _)

/-- A cascade of calls is a sweep of the visits that the calls make. -/
theorem run_cascade (h : c.Consistent) (calls : List Call) :
    (cascade takeBack calls).run c =
      .ok (c.sweep (calls.filterMap Call.visit?)).1 (c.sweep (calls.filterMap Call.visit?)).2 :=
  cascadeFrom_eq takeBack h calls

theorem run_uproot (h : c.Consistent) (e : Entity) (forced : Bool) :
    (uproot takeBack e forced).run c = .ok (c.uproot e forced).1 (c.uproot e forced).2 := by
  have hcascade := run_cascade takeBack (h.detach e)
    (Call.following e forced (c.detach e).1)
  rw [filterMap_following] at hcascade
  unfold uproot
  rw [bind_of_ok (run_detach takeBack h e)]
  exact bind_of_ok hcascade

/-! ## Replacing values -/

theorem run_withdraw {q : Quad} {rest : List Quad} (h : c.tally.Covers (q :: rest)) :
    (withdraw takeBack q).run c =
      .ok () { c with quads := (c.quads.remove q).2, tally := c.tally.release q } := by
  unfold withdraw
  rw [run_modify_bind]
  exact run_takeBack takeBack (c := { c with quads := (c.quads.remove q).2 }) h

theorem run_forM_withdraw {quads : List Quad} (h : c.tally.Covers quads) :
    (forM quads (withdraw takeBack)).run c =
      .ok () { c with
        quads := (c.quads.removeAll quads).2, tally := c.tally.releaseAll quads } := by
  induction quads generalizing c with
  | nil => rfl
  | cons q rest ih =>
      rw [List.forM_cons, bind_of_ok (run_withdraw takeBack h), ih h.release]
      rfl

end

/-- Quads that are there and no two of which state the same are all removed. -/
theorem fst_removeAll_of_pairwise {d : Dataset} {quads : List Quad}
    (hthere : ∀ q ∈ quads, d.contains q = true)
    (hdistinct : quads.Pairwise fun a b => (a == b) = false) : (d.removeAll quads).1 = quads := by
  induction quads generalizing d with
  | nil => rfl
  | cons q rest ih =>
      rw [List.forall_mem_cons] at hthere
      rw [List.pairwise_cons] at hdistinct
      have hrest : ∀ x ∈ rest, (d.remove q).2.contains x = true := fun x hx => by
        rw [Dataset.contains_remove, hthere.2 x hx, hdistinct.1 x hx]
        rfl
      simp only [Dataset.removeAll, Dataset.fst_remove, hthere.1, if_true, ih hrest hdistinct.2]

/-- The quads whose values are replaced are all there, and none is selected twice. -/
theorem remove_selected {s : Session} (h : s.contents.quads.Indexed) (e : Entity)
    (predicate : Term) (graph : Option Term) (locale : Option Locale) :
    (s.contents.remove (s.selected e predicate graph locale)).1 =
      s.selected e predicate graph locale := by
  refine fst_removeAll_of_pairwise (fun q hq => ?_) ?_
  · exact ((Session.contains_selected h).mp
      (List.contains_iff_exists_mem_beq.mpr ⟨q, hq, BEq.rfl⟩)).1
  · have hslot := s.contents.quads.bySlot.pairwise_values ⟨e.toTerm, .ofTerm predicate⟩
    refine ((hslot.filter _).filter _).imp fun {a b} hlt => ?_
    rw [← Quad.compare_beq_eq, hlt]
    rfl

theorem run_enterValues (e : Entity) (p : Predicate) (graph : Option Node) (values : List Node)
    (c : Contents) :
    (enterValues e p.node graph values).run c =
      .ok (c.add (Session.quadsOfValues e p graph values)).1
        (c.add (Session.quadsOfValues e p graph values)).2 := by
  induction values generalizing c with
  | nil => rfl
  | cons value rest ih =>
      have hmake : Quad.make e p.node value graph = .ok ⟨e, p, value, graph⟩ := by
        rw [Quad.make, Predicate.ofNode_eq_ok.mpr rfl]
        rfl
      unfold enterValues
      rw [hmake, bind_of_ok run_accept, bind_of_ok (run_enter _ c), bind_of_ok (ih _)]
      change EStateM.Result.ok _ _ = .ok (c.add (_ :: Session.quadsOfValues e p graph rest)).1
        (c.add (_ :: Session.quadsOfValues e p graph rest)).2
      rw [add_cons c ⟨e, p, value, graph⟩ (Session.quadsOfValues e p graph rest)]

/-- The checks come before anything is removed. -/
theorem clearValues_of_refused {takeBack : TakeBack} {s : Session} {e : Entity} {predicate : Node}
    {graph : Option Node} {locale : Option Locale} {refusal : Refusal}
    (h : s.admitReplace predicate = .error refusal) :
    (clearValues takeBack e predicate graph locale).run s = .error refusal s := by
  unfold Session.admitReplace at h
  unfold clearValues
  cases hopen : s.ensureOpen with
  | error refusal' =>
      rw [hopen] at h
      cases h
      exact bind_of_error (run_check_of_error hopen)
  | ok _ =>
      rw [hopen] at h
      rw [bind_of_ok (run_check_of_ok hopen)]
      cases hnode : Predicate.ofNode predicate with
      | error mismatch =>
          rw [hnode] at h
          cases h
          rfl
      | ok p =>
          rw [hnode] at h
          cases h

theorem clearValues_of_admitted {takeBack : TakeBack} {s : Session} (hs : s.contents.Consistent)
    {e : Entity} {p : Predicate} {graph : Option Node} {locale : Option Locale}
    (h : s.closed = false) :
    let removal := s.contents.remove (s.selected e p.term (graph.map Node.term) locale)
    (clearValues takeBack e p.node graph locale).run s =
      .ok removal.1 { s with contents := removal.2 } := by
  intro removal
  let selected := s.selected e p.term (graph.map Node.term) locale
  have hall : removal.1 = selected :=
    remove_selected hs.indexed e p.term (graph.map Node.term) locale
  have hopen : s.ensureOpen = .ok () := by
    rw [Session.ensureOpen, h]
    rfl
  have hnode : (discard (accept (Predicate.ofNode p.node)) : InPlace Session Unit).run s =
      .ok () s := by
    rw [Predicate.ofNode_eq_ok.mpr rfl]
    rfl
  have hcovered : s.contents.tally.Covers selected := hall ▸ hs.covers_remove selected
  have hwithdraw : (forM selected (withdraw takeBack)).run s.contents = .ok () removal.2 := by
    rw [run_forM_withdraw takeBack hcovered]
    change EStateM.Result.ok () { s.contents with
        quads := (s.contents.quads.removeAll selected).2
        tally := s.contents.tally.releaseAll selected } = .ok () { s.contents with
        quads := (s.contents.quads.removeAll selected).2
        tally := s.contents.tally.releaseAll removal.1 }
    rw [hall]
  unfold clearValues
  rw [bind_of_ok (run_check_of_ok hopen), bind_of_ok hnode, run_get_bind, hall]
  exact bind_of_ok (run_onContents hwithdraw)

theorem run_fillValues {takeBack : TakeBack} {s : Session} (hs : s.contents.Consistent)
    {e : Entity} {p : Predicate} {graph : Option Node} {locale : Option Locale}
    (values : List Node) :
    let removal := s.contents.remove (s.selected e p.term (graph.map Node.term) locale)
    (fillValues takeBack e p.node graph removal.1 values).run { s with contents := removal.2 } =
      .ok () (s.replaced e p values graph locale) := by
  intro removal
  have hadded := run_onContents (s := { s with contents := removal.2 })
    (run_enterValues e p graph values removal.2)
  have hvisits : (removal.1.map fun q => Call.unforced q.object).filterMap Call.visit? =
      Visit.orphans removal.1 := by
    rw [List.filterMap_map]
    rfl
  let addition := removal.2.add (Session.quadsOfValues e p graph values)
  have haddition : addition.2.Consistent := (hs.remove _).add _
  have hcascade := run_cascade takeBack haddition
    (removal.1.map fun q => .unforced q.object)
  rw [hvisits] at hcascade
  unfold fillValues
  rw [bind_of_ok hadded, bind_of_ok (run_onContents hcascade)]
  unfold Session.replaced
  change EStateM.Result.ok () (if s.isTracking then _ else _) = _
  cases s.isTracking <;> rfl

/-- A replacement in place, however its new values are computed. -/
theorem replaceWith_eq {m : Type → Type} [Monad m] [LawfulMonad m] {s : Session}
    (hs : s.contents.Consistent) (takeBack : TakeBack) (e : Entity) (predicate : Node)
    (values : m (List Node)) (graph : Option Node) (locale : Option Locale) :
    replaceWith takeBack e predicate values graph locale s =
      outcome s <$> s.replaceValues e predicate values graph locale := by
  unfold replaceWith Session.replaceValues
  cases hadmit : s.admitReplace predicate with
  | error refusal =>
      rw [clearValues_of_refused hadmit, map_pure]
      rfl
  | ok p =>
      obtain ⟨hopen, rfl⟩ := Session.admitReplace_eq_ok.mp hadmit
      rw [clearValues_of_admitted hs hopen]
      simp only [run_fillValues hs, map_bind, map_pure]
      rfl

/-! ## Deleting -/

theorem run_delete {s : Session} (hs : s.contents.Consistent) (takeBack : TakeBack) (e : Entity)
    (policy : DeletePolicy) :
    (delete takeBack e policy).run s = outcome s (s.delete e policy) := by
  unfold delete Session.delete
  refine run_check_bind ?_
  rw [bind_of_ok (run_onContents (run_uproot takeBack hs e policy.deleteChildren)), run_get_bind]
  change EStateM.Result.ok () (if s.isTracking then _ else _) = .ok () (s.deleted e policy)
  unfold Session.deleted
  cases s.isTracking <;> rfl

/-! ## The life of a session -/

theorem run_reset (s : Session) : reset.run s = outcome s s.reset :=
  run_check_bind rfl

theorem run_rollback (s : Session) : rollback.run s = outcome s s.rollback := by
  refine run_check_bind ?_
  rw [run_get_bind]
  obtain ⟨contents, log, baseline, closed⟩ := s
  cases baseline <;> rfl

theorem run_switchLog {threadSafe : Bool} {s : Session} {log : ChangeLog}
    (hlog : s.log.setThreadSafe threadSafe = .ok log) :
    (switchLog threadSafe).run s = .ok () { s with log } := by
  unfold switchLog
  rw [run_get_bind, hlog]
  rfl

/-- The log is empty when its mode is switched, so the switch succeeds. -/
theorem run_setThreadSafe (threadSafe : Bool) (s : Session) :
    (setThreadSafe threadSafe).run s = outcome s (s.setThreadSafe threadSafe) := by
  refine run_check_bind ?_
  rw [run_get_bind]
  by_cases hmode : s.isThreadSafe = threadSafe
  · rw [if_pos hmode, if_pos hmode]
    rfl
  · rw [if_neg hmode, if_neg hmode, run_get_bind]
    cases hdata : s.holdsData with
    | false =>
        obtain ⟨log, hlog⟩ := Session.exists_log_setThreadSafe_eq_ok hdata threadSafe
        let cleared : Session := { s with contents := { s.contents with quads := .new threadSafe } }
        have hswitched : (switchLog threadSafe).run cleared = .ok () { cleared with log } :=
          run_switchLog hlog
        simp only [Bool.false_eq_true, if_false, hlog]
        rw [run_modify_bind]
        exact bind_of_ok hswitched
    | true => rfl

theorem run_setTracking (tracking : Bool) (s : Session) :
    (setTracking tracking).run s = outcome s (s.setTracking tracking) := by
  refine run_check_bind ?_
  rw [run_get_bind]
  by_cases htracking : s.isTracking = tracking
  · rw [if_pos htracking, if_pos htracking]
    rfl
  · rw [if_neg htracking, if_neg htracking, run_get_bind]
    cases s.isEmpty <;> rfl

end InPlace

open InPlace in
/-- The program of a command fails with the session as it was if the command is refused,
and leads to the session to which the command leads. -/
theorem Command.run_carryOutWith {s : Session} (hs : s.contents.Consistent) (takeBack : TakeBack)
    (command : Command) :
    (command.carryOutWith takeBack).run s = outcome s (s.perform command) := by
  cases command with
  | load e quads => exact run_load e quads s
  | replace e predicate values graph locale =>
      exact replaceWith_eq (m := Id) hs takeBack e predicate values graph locale
  | delete e policy => exact run_delete hs takeBack e policy
  | reset => exact run_reset s
  | rollback => exact run_rollback s
  | takeChanges => rfl
  | setThreadSafe threadSafe => exact run_setThreadSafe threadSafe s
  | setTracking tracking => exact run_setTracking tracking s
  | dispose => rfl

namespace Session

/-! ## Every reference that is taken back was counted -/

/-- After every history, the count of a blank node is the number of quads with it as their
object.  Whatever command comes next, it ends as it should in whichever way references are
taken back, even if this fails for a blank node of which none is counted.  So every count
that goes down was at least one before. -/
theorem referenceCount_run (options : Options) (commands : List Command) :
    let s := (start options).run commands
    (∀ b, s.referenceCount (.blank b) = .ok (referencesTo b s.quads)) ∧
      ∀ (command : Command) (takeBack : TakeBack),
        (command.carryOutWith takeBack).run s = InPlace.outcome s (s.perform command) := by
  intro s
  have h : s.contents.Consistent := (consistent_run options commands).contents
  constructor
  · intro b
    exact congrArg Except.ok (h.count_eq b)
  · intro command takeBack
    exact command.run_carryOutWith h takeBack

open Sample in
/-- A person lives at an address that knows itself.  When the person is deleted with its
children, the reference of the address to itself is taken back before the address is
forgotten, so the deletion succeeds even if nothing may be taken back that is not counted. -/
theorem referenceCount_run_person :
    let s := (start {}).run [.load (.iri person) [fact (.iri person) livesAt (.blank address),
      fact (.blank address) knows (.blank address)]]
    s.referenceCount (.blank address) = .ok 2 ∧
      ∀ refusal, ((Command.delete (.iri person) .children).carryOutWith (.strict refusal)).run s =
        .ok () (s.deleted (.iri person) .children) := by
  intro s
  obtain ⟨hcount, hends⟩ := referenceCount_run {} [.load (.iri person)
    [fact (.iri person) livesAt (.blank address), fact (.blank address) knows (.blank address)]]
  constructor
  · have hreferences : referencesTo address s.quads = 2 := by decide
    exact (hcount address).trans (congrArg Except.ok hreferences)
  · intro refusal
    have hdelete : s.perform (.delete (.iri person) .children) =
        .ok (s.deleted (.iri person) .children) := delete_eq_ok.mpr ⟨by decide, rfl⟩
    rw [hends, hdelete]
    rfl

end Session

end QuadSession

import QuadSession.Session.Command

/-!
# Operations in place

An operation on a session alters it piece by piece: a quad enters the indices, then its
reference is counted, then the next quad follows.  Some of these steps can fail, for a
count can only be kept of a blank node and a quad cannot be made with a literal as its
predicate.  A step that fails ends the operation, and what was altered before stays
altered.

This module spells the operations out as programs on a session in which every step that
can fail is there with its failure.  It is a theorem, not part of the definitions, that
they do what the operations of `QuadSession.Session.Command` do and that no step fails
once something was altered.

References that were never counted cannot be taken back.  A session does nothing then, and
the programs are told what to do, be it to fail.  The way to take a reference back is a
parameter throughout, and nothing but the positive counts ties it down.

## Main definitions

* `InPlace` is a program that alters a state and may fail on the way.
* `TakeBack` is a way to take a reference back.
* `InPlace.replaceWith` leaves open how the new values are computed.
* `Command.carryOutWith` is the program of a command, and `Command.carryOut` is the one that
  takes references back as sessions do.
-/

namespace QuadSession

/-- A program on a state.  If it fails, it leaves the state as it was at that moment. -/
abbrev InPlace (σ : Type) : Type → Type :=
  EStateM Refusal σ

/-- A way to take a reference to a blank node back.  One reference less is counted then, if
there was one.  What is done where none was counted is left open, and it may be to fail. -/
structure TakeBack where
  apply : Tally → Blank → Except Refusal Tally
  apply_of_pos : ∀ t b, 0 < t.count b → apply t b = .ok (t.decrement b)

namespace TakeBack

/-- The way of a session, which leaves a tally as it is where nothing was counted. -/
def lenient : TakeBack where
  apply t b := .ok (t.decrement b)
  apply_of_pos _ _ _ := rfl

/-- Fails where nothing was counted. -/
def strict (refusal : Refusal) : TakeBack where
  apply t b := if t.count b = 0 then .error refusal else .ok (t.decrement b)
  apply_of_pos _ _ hpos := if_neg (Nat.ne_of_gt hpos)

end TakeBack

namespace InPlace

section

variable {σ α : Type}

/-- Fails if the check refuses the state. -/
def check (permitted : σ → Except Refusal Unit) : InPlace σ Unit := do
  match permitted (← get) with
  | .ok _ => return
  | .error refusal => throw refusal

/-- What was made of a node, or the failure if the node is of the wrong kind. -/
def accept (made : Except KindMismatch α) : InPlace σ α :=
  match made with
  | .ok a => pure a
  | .error mismatch => throw (.kind mismatch)

/-- Lets a program work on the contents of a session. -/
def onContents (program : InPlace Contents α) : InPlace Session α := fun s =>
  match program s.contents with
  | .ok a contents => .ok a { s with contents }
  | .error refusal contents => .error refusal { s with contents }

end

/-! ## Quads and their references -/

/-- Adjusts the count of the object of a quad, if it is blank. -/
def recount (adjust : Tally → Blank → Except Refusal Tally) (q : Quad) :
    InPlace Contents Unit := do
  if q.object.isBlank then
    let blank ← accept q.object.term.expectBlank
    let c ← get
    match adjust c.tally blank with
    | .ok tally => set { c with tally }
    | .error refusal => throw refusal

/-- Adds a quad and counts its reference, and says whether the quad was new. -/
def enter (q : Quad) : InPlace Contents Bool := do
  let c ← get
  let (isNew, quads) := c.quads.add q
  set { c with quads }
  if isNew then recount (fun t b => .ok (t.increment b)) q
  return isNew

/-- Removes a quad that is there and takes its reference back. -/
def withdraw (takeBack : TakeBack) (q : Quad) : InPlace Contents Unit := do
  modify fun c => { c with quads := (c.quads.remove q).2 }
  recount takeBack.apply q

/-! ## The cascade -/

/-- An entity that was removed is not counted and not loaded any more. -/
def strike (e : Entity) : InPlace Contents Unit :=
  modify fun c =>
    { c with
      tally := match e.blank? with
        | some blank => c.tally.forget blank
        | none => c.tally
      loaded := c.loaded.erase e }

/-- Removes an entity as `Contents.detach` does, with one step for each reference that is
taken back. -/
def detach (takeBack : TakeBack) (e : Entity) : InPlace Contents (List Quad) := do
  let c ← get
  let (own, dataset) := c.quads.removeAll (c.quads.ownedBy e)
  let (references, dataset) :=
    dataset.removeAll (if e.isBlank then dataset.withObject e.toTerm else [])
  set { c with quads := dataset }
  let removed := own ++ references
  forM removed (recount takeBack.apply)
  strike e
  return removed

/-- A call that the cascade has still to make: to look at the object of a removed quad.
Only blank nodes are removed by force. -/
structure Call where
  node : Node
  forced : Bool
  blank_of_forced : forced = true → node.isBlank = true

namespace Call

/-- The call for an object that goes if nothing refers to it. -/
def unforced (node : Node) : Call :=
  ⟨node, false, fun h => Bool.noConfusion h⟩

/-- The calls that the removal of an entity leads to. -/
def following (e : Entity) (forced : Bool) (removed : List Quad) : List Call :=
  removed.filterMap fun q =>
    if h : q.object.isBlank = true ∧ q.object.term ≠ e.toTerm then
      some ⟨q.object, forced && q.owner == e, fun _ => h.1⟩
    else none

/-- Whether the call is to go on.  Without force it goes on for blank nodes that nothing
refers to. -/
def isPermitted (call : Call) : InPlace Contents Bool := do
  if call.forced then return true
  if !call.node.isBlank then return false
  let blank ← accept call.node.term.expectBlank
  return (← get).tally.count blank == 0

/-- The entity that the call has to remove, if there is anything to remove. -/
def target (call : Call) : InPlace Contents (Option Entity) := do
  let permitted ← call.isPermitted
  let quads := (← get).quads
  return (Entity.ofTerm? call.node.term).filter fun e =>
    permitted && (quads.hasOwner e || !(quads.referrers call.node.term).isEmpty)

end Call

/-! The cascade comes to an end because nothing but the tally depends on how references are
taken back: if a removal gets through, it has removed what `Contents.detach` removes. -/

section

variable {σ α β : Type} {x : InPlace σ α} {f : α → InPlace σ β} {s t u : σ} {a : α} {b : β}
  {refusal : Refusal}

theorem bind_of_ok (h : x.run s = .ok a t) : (x >>= f).run s = (f a).run t := by
  simp only [EStateM.run, bind, EStateM.bind] at h ⊢
  rw [h]

theorem bind_of_error (h : x.run s = .error refusal t) :
    (x >>= f).run s = .error refusal t := by
  simp only [EStateM.run, bind, EStateM.bind] at h ⊢
  rw [h]

theorem of_bind_eq_ok (h : (x >>= f).run s = .ok b u) :
    ∃ a t, x.run s = .ok a t ∧ (f a).run t = .ok b u := by
  cases hx : x.run s with
  | ok a t =>
      rw [bind_of_ok hx] at h
      exact ⟨a, t, rfl, h⟩
  | error refusal t =>
      rw [bind_of_error hx] at h
      cases h

end

theorem run_recount (adjust : Tally → Blank → Except Refusal Tally) (q : Quad) (c : Contents) :
    (recount adjust q).run c = match q.object.term.blank? with
      | some blank =>
        match adjust c.tally blank with
        | .ok tally => .ok () { c with tally }
        | .error refusal => .error refusal c
      | none => .ok () c := by
  unfold recount Node.isBlank
  cases q.object.term with
  | blank blank =>
      show EStateM.run (match adjust c.tally blank with
        | .ok tally => set { c with tally }
        | .error refusal => throw refusal) c = match adjust c.tally blank with
        | .ok tally => .ok () { c with tally }
        | .error refusal => .error refusal c
      cases adjust c.tally blank <;> rfl
  | iri name => rfl
  | literal value => rfl

/-- However references are counted, the quads stay. -/
theorem quads_eq_of_recount {adjust : Tally → Blank → Except Refusal Tally} {q : Quad}
    {c d : Contents} (h : (recount adjust q).run c = .ok () d) : d.quads = c.quads := by
  rw [run_recount] at h
  split at h
  · split at h <;> cases h
    rfl
  · cases h
    rfl

theorem quads_eq_of_forM_recount {adjust : Tally → Blank → Except Refusal Tally}
    {quads : List Quad} {c d : Contents} (h : (forM quads (recount adjust)).run c = .ok () d) :
    d.quads = c.quads := by
  induction quads generalizing c with
  | nil =>
      cases h
      rfl
  | cons q rest ih =>
      rw [List.forM_cons] at h
      obtain ⟨_, m, hfirst, hrest⟩ := of_bind_eq_ok h
      exact (ih hrest).trans (quads_eq_of_recount hfirst)

/-- A removal that gets through has removed what goes with the entity. -/
theorem of_run_detach {takeBack : TakeBack} {e : Entity} {c d : Contents} {removed : List Quad}
    (h : (detach takeBack e).run c = .ok removed d) :
    removed = (c.detach e).1 ∧ d.quads = (c.detach e).2.quads := by
  let own := c.quads.removeAll (c.quads.ownedBy e)
  let references :=
    own.2.removeAll (if e.isBlank then own.2.withObject e.toTerm else [])
  have hsteps : (do
      forM (own.1 ++ references.1) (recount takeBack.apply)
      strike e
      return own.1 ++ references.1 : InPlace Contents (List Quad)).run
        { c with quads := references.2 } = .ok removed d := h
  obtain ⟨_, m, hcounts, hlast⟩ := of_bind_eq_ok hsteps
  have hquads : m.quads = references.2 := quads_eq_of_forM_recount hcounts
  cases hlast
  exact ⟨rfl, hquads⟩

namespace Call

/-- The visit that the call makes, if its node is blank. -/
def visit? (call : Call) : Option Visit :=
  call.node.term.blank?.map fun blank => ⟨blank, call.forced⟩

/-- The entity that the call removes, if it is due. -/
def removes? (call : Call) (c : Contents) : Option Entity :=
  match call.visit? with
  | some v => if c.isDue v then some (.blank v.blank) else none
  | none => none

theorem run_isPermitted (call : Call) (c : Contents) :
    call.isPermitted.run c = .ok (match call.visit? with
      | some v => v.forced || c.tally.count v.blank == 0
      | none => false) c := by
  obtain ⟨node, forced, hblank⟩ := call
  unfold isPermitted visit? Node.isBlank at *
  cases forced
  · cases node.term <;> rfl
  · obtain ⟨blank, hnode⟩ := Term.isBlank_iff.mp (hblank rfl)
    simp only [hnode]
    rfl

theorem run_target (call : Call) (c : Contents) :
    call.target.run c = .ok (call.removes? c) c := by
  unfold target
  rw [bind_of_ok (call.run_isPermitted c)]
  unfold removes? visit?
  cases call.node.term <;> rfl

/-- A call that removes nothing is followed by none, and one that removes something leaves
fewer quads. -/
theorem following_lt (e : Entity) (call : Call) (rest : List Call) (c : Contents) :
    Prod.Lex (· < ·) (· < ·)
      ((c.detach e).2.quads.size, (following e call.forced (c.detach e).1 ++ rest).length)
      (c.quads.size, (call :: rest).length) := by
  have hsize := c.size_detach e
  cases hremoved : (c.detach e).1 with
  | nil =>
      rw [hremoved, List.length_nil, Nat.add_zero] at hsize
      rw [hsize]
      exact Prod.Lex.right _ (Nat.lt_succ_self _)
  | cons q more =>
      rw [hremoved, List.length_cons] at hsize
      exact Prod.Lex.left _ _ (by omega)

end Call

/-- The cascade of the calls, from the contents `c` on. -/
def cascadeFrom (takeBack : TakeBack) (calls : List Call) (c : Contents) :
    EStateM.Result Refusal Contents (List Removal) :=
  match calls with
  | [] => .ok [] c
  | call :: rest =>
    match _htarget : call.target.run c with
    | .error refusal c => .error refusal c
    | .ok none c => cascadeFrom takeBack rest c
    | .ok (some e) c =>
      match _hdetach : (detach takeBack e).run c with
      | .error refusal c => .error refusal c
      | .ok removed c =>
        match cascadeFrom takeBack (Call.following e call.forced removed ++ rest) c with
        | .error refusal c => .error refusal c
        | .ok more c => .ok (⟨e, removed⟩ :: more) c
termination_by (c.quads.size, calls.length)
decreasing_by
  · rw [Call.run_target] at _htarget
    injection _htarget with _ hsame
    subst hsame
    exact Prod.Lex.right _ (Nat.lt_succ_self _)
  · rw [Call.run_target] at _htarget
    injection _htarget with _ hsame
    subst hsame
    obtain ⟨rfl, hquads⟩ := of_run_detach _hdetach
    rw [hquads]
    exact Call.following_lt e call rest _

/-- Makes the calls one after the other, each with all that follow from it.  The entities
that were removed are returned in the order of their removal. -/
def cascade (takeBack : TakeBack) (calls : List Call) : InPlace Contents (List Removal) :=
  fun c => cascadeFrom takeBack calls c

/-- Removes an entity and the blank nodes that go with it. -/
def uproot (takeBack : TakeBack) (e : Entity) (forced : Bool) :
    InPlace Contents (List Removal) := do
  let removed ← detach takeBack e
  let more ← cascade takeBack (Call.following e forced removed)
  return ⟨e, removed⟩ :: more

/-! ## Loading -/

/-- Takes in one quad.  If it is new to the session, it becomes part of the baseline. -/
def takeIn (q : Quad) : InPlace Session Unit := do
  if ← onContents (enter q) then
    modify fun s =>
      { s with baseline := s.baseline.map fun b => { b with quads := (b.quads.add q).2 } }

/-- Takes in the quads of an entity that is not loaded. -/
def load (e : Entity) (quads : List Quad) : InPlace Session Unit := do
  check Session.ensureOpen
  if (← get).isLoaded e then return
  forM quads takeIn
  modify fun s =>
    { s with
      contents := { s.contents with loaded := s.contents.loaded.insert e }
      baseline := s.baseline.map fun b => { b with loaded := b.loaded.insert e } }

/-! ## Replacing values -/

/-- Removes the quads whose values are to be replaced.  They are returned. -/
def clearValues (takeBack : TakeBack) (e : Entity) (predicate : Node) (graph : Option Node)
    (locale : Option Locale) : InPlace Session (List Quad) := do
  check Session.ensureOpen
  discard <| accept (Predicate.ofNode predicate)
  let selected := (← get).selected e predicate.term (graph.map Node.term) locale
  onContents (forM selected (withdraw takeBack))
  return selected

/-- Adds a quad for each value, and returns those that were new. -/
def enterValues (e : Entity) (predicate : Node) (graph : Option Node) :
    List Node → InPlace Contents (List Quad)
  | [] => return []
  | value :: rest => do
    let q ← accept (Quad.make e predicate value graph)
    let isNew ← enter q
    let more ← enterValues e predicate graph rest
    return if isNew then q :: more else more

/-- Puts the new values in the place of the removed quads, lets what lost its last
reference go, and records what was done. -/
def fillValues (takeBack : TakeBack) (e : Entity) (predicate : Node) (graph : Option Node)
    (removed : List Quad) (values : List Node) : InPlace Session Unit := do
  let added ← onContents (enterValues e predicate graph values)
  let collected ← onContents (cascade takeBack (removed.map fun q => .unforced q.object))
  let lost := removed.filter (fun q => !added.contains q) ++ collected.flatMap Removal.quads
  let gained := added.filter fun q => !removed.contains q
  modify fun s =>
    if s.isTracking then
      { s with log := s.log.addAll (Session.editsOf s.contents.quads e lost gained) }
    else s

/-- Replaces the values of an entity for a predicate.  The new values are computed after
the old ones were removed, and not at all if the removal failed. -/
def replaceWith (takeBack : TakeBack) {m : Type → Type} [Monad m] (e : Entity)
    (predicate : Node) (values : m (List Node)) (graph : Option Node) (locale : Option Locale)
    (s : Session) : m (EStateM.Result Refusal Session Unit) :=
  match (clearValues takeBack e predicate graph locale).run s with
  | .error refusal s => pure (.error refusal s)
  | .ok removed s => do
    return (fillValues takeBack e predicate graph removed (← values)).run s

/-- Replaces values and takes references back as sessions do. -/
def replace {m : Type → Type} [Monad m] (e : Entity) (predicate : Node)
    (values : m (List Node)) (graph : Option Node) (locale : Option Locale) (s : Session) :
    m (EStateM.Result Refusal Session Unit) :=
  replaceWith .lenient e predicate values graph locale s

/-! ## Deleting -/

/-- Removes an entity and the blank nodes that go with it, as the policy says. -/
def delete (takeBack : TakeBack) (e : Entity) (policy : DeletePolicy) :
    InPlace Session Unit := do
  check Session.ensureOpen
  let removals ← onContents (uproot takeBack e policy.deleteChildren)
  let quads := (← get).contents.quads
  let (references, quads) :=
    if policy.nullifyReferences && !e.isBlank then quads.removeWithObject e.toTerm else ([], quads)
  modify fun s => { s with contents := { s.contents with quads } }
  let removed := removals.flatMap Removal.quads ++ references
  modify fun s =>
    if s.isTracking then
      { s with log := s.log.addAll (Session.deletionOf s.contents.quads e policy removed) }
    else s

/-! ## The life of a session -/

/-- Makes the present state the baseline, and clears the log. -/
def reset : InPlace Session Unit := do
  check Session.ensureOpen
  modify fun s => { s with baseline := s.baseline.map fun _ => .ofContents s.contents }
  modify fun s => { s with log := s.log.clear }

/-- Restores the baseline, and clears the log. -/
def rollback : InPlace Session Unit := do
  check Session.ensureOpen
  match (← get).baseline with
  | none => throw (.obstacle .noBaseline)
  | some baseline =>
    modify fun s => { s with contents := baseline.restore }
    modify fun s => { s with log := s.log.clear }

/-- Switches the mode of the log, which fails while it holds changes. -/
def switchLog (threadSafe : Bool) : InPlace Session Unit := do
  let s ← get
  match s.log.setThreadSafe threadSafe with
  | .error obstacle => throw (.obstacle obstacle)
  | .ok log => set { s with log }

/-- Switches the mode for use by several threads.  The log comes after the quads. -/
def setThreadSafe (threadSafe : Bool) : InPlace Session Unit := do
  check Session.ensureOpen
  if (← get).isThreadSafe = threadSafe then return
  if (← get).holdsData then throw (.obstacle .modeLocked)
  modify fun s => { s with contents := { s.contents with quads := .new threadSafe } }
  switchLog threadSafe
  modify fun s => { s with baseline := s.baseline.map fun _ => .new threadSafe }

/-- Switches the tracking of changes. -/
def setTracking (tracking : Bool) : InPlace Session Unit := do
  check Session.ensureOpen
  if (← get).isTracking = tracking then return
  if !(← get).isEmpty then throw (.obstacle .trackingLocked)
  modify fun s => { s with baseline := if tracking then some (.new s.isThreadSafe) else none }
  modify fun s => { s with log := s.log.clear }

end InPlace

/-- The program of a command, which takes references back in the given way. -/
def Command.carryOutWith (takeBack : TakeBack) : Command → InPlace Session Unit
  | .load e quads => InPlace.load e quads
  | .replace e predicate values graph locale => fun s =>
    Id.run (InPlace.replaceWith takeBack e predicate (pure values) graph locale s)
  | .delete e policy => InPlace.delete takeBack e policy
  | .reset => InPlace.reset
  | .rollback => InPlace.rollback
  | .takeChanges => modify fun s => s.takeChanges.2
  | .setThreadSafe threadSafe => InPlace.setThreadSafe threadSafe
  | .setTracking tracking => InPlace.setTracking tracking
  | .dispose => modify Session.dispose

/-- The program of a command in a session. -/
def Command.carryOut (command : Command) : InPlace Session Unit :=
  command.carryOutWith .lenient

end QuadSession

import Mathlib.Data.List.Nodup
import QuadSession.ChangeLog.Numbered
import QuadSession.Proofs.Replay

/-!
# Numbers keep the order of the stacks

A log that keeps its stacks in a map sorts them by number whenever their order
matters.  This file proves that it is thereby the same as a log that keeps them in
the order in which their graphs were first touched: both answer all questions alike
after every sequence of calls.

## Strategy

The numbers of the stacks are positive, none is greater than the count, and no two
are the same (`NumberedLog.Numbered`).  So a stack that is made takes the greatest
number and comes last, as in a list, and a stack that is touched again keeps its
place, even if it is empty.  Sorting by different numbers has one result only, so it
is enough to give a sorted list with the entries of the map (`byNumber_eq`), in
whichever order the map lists them.

Stacks that are taken out of the map, to be settled or to be drained, come in the same
order as those that are listed (`flatMap_byNumber`).

## Main statements

* `NumberedLog.Keeps.add` and `NumberedLog.Keeps.step`: every call keeps both logs the same.
* `NumberedLog.answersAs_run`: they answer alike after every sequence of calls.
-/

namespace QuadSession

/-- Positive numbers in ascending order, up to a count. -/
structure Counted (count : Nat) (numbers : List Nat) : Prop where
  ascending : numbers.Pairwise (· < ·)
  pos : ∀ k ∈ numbers, 0 < k
  le : ∀ k ∈ numbers, k ≤ count

namespace Counted

variable {count : Nat} {numbers : List Nat}

theorem nil (count : Nat) : Counted count [] where
  ascending := .nil
  pos _ hk := absurd hk List.not_mem_nil
  le _ hk := absurd hk List.not_mem_nil

theorem succ (h : Counted count numbers) : Counted (count + 1) numbers where
  ascending := h.ascending
  pos := h.pos
  le k hk := Nat.le_succ_of_le (h.le k hk)

/-- The next number is greater than all others. -/
theorem append (h : Counted count numbers) : Counted (count + 1) (numbers ++ [count + 1]) where
  ascending := by
    refine List.pairwise_append.mpr ⟨h.ascending, List.pairwise_singleton _ _, ?_⟩
    intro k hk k' hk'
    rw [List.mem_singleton] at hk'
    have hle := h.le k hk
    omega
  pos := List.forall_mem_append.mpr ⟨h.pos, List.forall_mem_singleton.mpr (Nat.succ_pos _)⟩
  le := List.forall_mem_append.mpr ⟨h.succ.le, List.forall_mem_singleton.mpr (Nat.le_refl _)⟩

end Counted

namespace StackEntry

/-- Touches the stack of the graph of an edit in a list of entries.  If there is none,
it is made at the end. -/
def touchIn (number : Nat) (c : GraphEdit) : List StackEntry → List StackEntry
  | [] => [(c.graphTerm, NumberedStack.new.touch number c)]
  | entry :: rest =>
    if entry.1 = c.graphTerm then (entry.1, entry.2.touch number c) :: rest
    else entry :: touchIn number c rest

def numbers (entries : List StackEntry) : List Nat :=
  entries.map fun entry => entry.2.number

variable {number : Nat} {c : GraphEdit} {entries before after : List StackEntry}
  {s : NumberedStack}

theorem map_stack_touchIn : (touchIn number c entries).map stack =
    ChangeLog.pushOnStack c (entries.map stack) := by
  induction entries with
  | nil => rfl
  | cons entry rest ih =>
      rw [touchIn, List.map_cons, ChangeLog.pushOnStack]
      by_cases h : entry.1 = c.graphTerm
      · rw [if_pos h, if_pos (show entry.stack.graph = c.graphTerm from h)]
        rfl
      · rw [if_neg h, if_neg (show entry.stack.graph ≠ c.graphTerm from h), List.map_cons, ih]

theorem touchIn_of_not_mem (h : c.graphTerm ∉ entries.map Prod.fst) :
    touchIn number c entries = entries ++ [(c.graphTerm, NumberedStack.new.touch number c)] := by
  induction entries with
  | nil => rfl
  | cons entry rest ih =>
      rw [List.map_cons, List.mem_cons, not_or] at h
      rw [touchIn, if_neg (Ne.symm h.1), ih h.2, List.cons_append]

theorem touchIn_of_mem (h : c.graphTerm ∉ before.map Prod.fst) :
    touchIn number c (before ++ (c.graphTerm, s) :: after) =
      before ++ (c.graphTerm, s.touch number c) :: after := by
  induction before with
  | nil => exact if_pos rfl
  | cons entry rest ih =>
      rw [List.map_cons, List.mem_cons, not_or] at h
      rw [List.cons_append, touchIn, if_neg (Ne.symm h.1), ih h.2, List.cons_append]

/-- The stack of the edit is made at the end, or touched where it is. -/
theorem touchIn_cases (number : Nat) (c : GraphEdit) (hnodup : (entries.map Prod.fst).Nodup) :
    (c.graphTerm ∉ entries.map Prod.fst ∧
      touchIn number c entries = entries ++ [(c.graphTerm, NumberedStack.new.touch number c)]) ∨
    ∃ before s after, entries = before ++ (c.graphTerm, s) :: after ∧
      c.graphTerm ∉ (before ++ after).map Prod.fst ∧
      touchIn number c entries = before ++ (c.graphTerm, s.touch number c) :: after := by
  by_cases h : c.graphTerm ∈ entries.map Prod.fst
  · obtain ⟨⟨graph, s⟩, hentry, rfl : graph = _⟩ := List.mem_map.mp h
    obtain ⟨before, after, rfl⟩ := List.append_of_mem hentry
    rw [List.map_append, List.map_cons, List.nodup_middle, ← List.map_append] at hnodup
    have hothers : c.graphTerm ∉ (before ++ after).map Prod.fst := (List.nodup_cons.mp hnodup).1
    have hbefore : c.graphTerm ∉ before.map Prod.fst := by
      rw [List.map_append, List.mem_append, not_or] at hothers
      exact hothers.1
    exact .inr ⟨before, s, after, rfl, hothers, touchIn_of_mem hbefore⟩
  · exact .inl ⟨h, touchIn_of_not_mem h⟩

/-- A stack that is made takes the number of the edit.  The other numbers stay. -/
theorem numbers_touchIn (number : Nat) (c : GraphEdit)
    (hnodup : (entries.map Prod.fst).Nodup) (hpos : ∀ k ∈ numbers entries, 0 < k) :
    numbers (touchIn number c entries) = numbers entries ∨
      numbers (touchIn number c entries) = numbers entries ++ [number] := by
  obtain ⟨-, htouched⟩ | ⟨before, s, after, rfl, -, htouched⟩ :=
    touchIn_cases number c hnodup
  · rw [htouched, numbers, List.map_append]
    exact .inr rfl
  · have hold : s.number ≠ 0 := by
      refine Nat.ne_of_gt (hpos s.number ?_)
      exact List.mem_map.mpr ⟨_, List.mem_append_right _ List.mem_cons_self, rfl⟩
    rw [htouched, numbers, numbers, List.map_append, List.map_append, List.map_cons,
      List.map_cons, NumberedStack.touch, if_neg hold]
    exact .inl rfl

end StackEntry

namespace NumberedLog

variable {n : NumberedLog} {entries : List StackEntry} {c : GraphEdit}

/-- The numbers of the stacks are counted, and no two are the same. -/
def Numbered (n : NumberedLog) : Prop :=
  Counted n.count (StackEntry.numbers n.byNumber)

theorem perm_byNumber (n : NumberedLog) : n.byNumber.Perm n.byGraph.toList :=
  List.mergeSort_perm _ _

theorem nodup_graphs_byNumber (n : NumberedLog) : (n.byNumber.map Prod.fst).Nodup := by
  have hdistinct : n.byGraph.toList.Pairwise fun a b => a.1 ≠ b.1 := by
    refine n.byGraph.distinct_keys_toList.imp fun hne heq => hne ?_
    rw [heq]
    exact Std.ReflCmp.compare_self
  rw [((perm_byNumber n).map Prod.fst).nodup_iff]
  exact List.pairwise_map.mpr hdistinct

/-- In whichever order the entries of the map come, sorted by different numbers they
come in one order only. -/
theorem byNumber_eq (hperm : entries.Perm n.byGraph.toList)
    (hascending : (StackEntry.numbers entries).Pairwise (· < ·)) : n.byNumber = entries := by
  have hsorted : n.byNumber.Pairwise fun a b => decide (a.2.number ≤ b.2.number) = true := by
    refine List.pairwise_mergeSort (fun a b c hab hbc => ?_) (fun a b => ?_) _
    · rw [decide_eq_true_eq] at hab hbc ⊢
      exact Nat.le_trans hab hbc
    · rw [Bool.or_eq_true, decide_eq_true_eq, decide_eq_true_eq]
      exact Nat.le_total _ _
  have hnodup : (entries.map fun entry => entry.2.number).Nodup := hascending.imp Nat.ne_of_lt
  have hentries := (perm_byNumber n).trans hperm.symm
  refine hentries.eq_of_pairwise (fun a b ha hb hab hba => ?_) hsorted
    ((List.pairwise_map.mp hascending).imp fun hlt => decide_eq_true (Nat.le_of_lt hlt))
  refine List.inj_on_of_nodup_map hnodup (hentries.mem_iff.mp ha) hb ?_
  exact Nat.le_antisymm (of_decide_eq_true hab) (of_decide_eq_true hba)

/-! ## Adding an edit -/

theorem getElem?_eq_some_iff {graph : Option Term} {s : NumberedStack} :
    n.byGraph[graph]? = some s ↔ (graph, s) ∈ n.byNumber := by
  rw [← Std.TreeMap.mem_toList_iff_getElem?_eq_some, (perm_byNumber n).mem_iff]

theorem add_inGraph (n : NumberedLog) (hc : c.isEmpty = false) :
    n.add (.inGraph c) =
      { n with
        byGraph := n.byGraph.insert c.graphTerm
          ((n.byGraph[c.graphTerm]?.getD .new).touch (n.count + 1) c)
        count := n.count + 1 } := by
  rw [add, Change.isEmpty, if_neg (Bool.eq_false_iff.mp hc)]

/-- Entries of other graphs are left when those of a graph are taken out. -/
theorem filter_key_eq_self {graph : Option Term} (h : graph ∉ entries.map Prod.fst) :
    entries.filter (fun entry => ¬ (graph == entry.1) = true) = entries := by
  refine List.filter_eq_self.mpr fun entry hentry => ?_
  have hne : graph ≠ entry.1 := fun heq => h (heq ▸ List.mem_map_of_mem hentry)
  simp [hne]

/-- Touched in the order of their numbers, the entries are those of the map after the
edit. -/
theorem perm_touchIn_add (hc : c.isEmpty = false) :
    (StackEntry.touchIn (n.count + 1) c n.byNumber).Perm
      (n.add (.inGraph c)).byGraph.toList := by
  have hinsert := Std.TreeMap.toList_insert_perm (t := n.byGraph) (k := c.graphTerm)
    (v := (n.byGraph[c.graphTerm]?.getD .new).touch (n.count + 1) c)
  have hold := (perm_byNumber n).filter fun entry => ¬ (c.graphTerm == entry.1) = true
  rw [add_inGraph n hc]
  refine .trans ?_ (hinsert.symm)
  refine .trans ?_ (hold.cons _)
  obtain ⟨hnew, htouched⟩ | ⟨before, s, after, hsplit, hothers, htouched⟩ :=
    StackEntry.touchIn_cases (n.count + 1) c (nodup_graphs_byNumber n)
  · have hnone : n.byGraph[c.graphTerm]? = none := by
      refine Option.eq_none_iff_forall_ne_some.mpr fun s hs => hnew ?_
      exact List.mem_map_of_mem (getElem?_eq_some_iff.mp hs)
    rw [htouched, hnone, filter_key_eq_self hnew]
    exact List.perm_append_singleton _ _
  · have hsome : n.byGraph[c.graphTerm]? = some s := by
      rw [getElem?_eq_some_iff, hsplit]
      exact List.mem_append_right _ List.mem_cons_self
    have hfilter : n.byNumber.filter (fun entry => ¬ (c.graphTerm == entry.1) = true) =
        before ++ after := by
      rw [hsplit, List.filter_append, List.filter_cons_of_neg (by simp), ← List.filter_append]
      exact filter_key_eq_self hothers
    rw [htouched, hsome, hfilter]
    exact List.perm_middle

/-- An edit touches its stack where it is in the order of the numbers, or makes it at
the end. -/
theorem Numbered.byNumber_add (h : n.Numbered) (hc : c.isEmpty = false) :
    (n.add (.inGraph c)).byNumber = StackEntry.touchIn (n.count + 1) c n.byNumber ∧
      (n.add (.inGraph c)).Numbered := by
  have hcount : (n.add (.inGraph c)).count = n.count + 1 := by
    rw [add_inGraph n hc]
  have hcounted : Counted (n.count + 1)
      (StackEntry.numbers (StackEntry.touchIn (n.count + 1) c n.byNumber)) := by
    rcases StackEntry.numbers_touchIn (n.count + 1) c (nodup_graphs_byNumber n) h.pos with
      hsame | hmade
    · rw [hsame]
      exact h.succ
    · rw [hmade]
      exact h.append
  have hbyNumber := byNumber_eq (perm_touchIn_add hc) hcounted.ascending
  refine ⟨hbyNumber, ?_⟩
  rw [Numbered, hbyNumber, hcount]
  exact hcounted

/-! ## The same log in a list -/

/-- The stacks that are taken out hold what is listed of them. -/
theorem flatMap_byNumber (n : NumberedLog) :
    n.byNumber.flatMap (fun entry => entry.stack.changes) =
      n.unsettled.flatMap GraphStack.changes :=
  (List.flatMap_map ..).symm

theorem settle_eq (n : NumberedLog) : n.settle = { n with settled := n.changes, byGraph := ∅ } := by
  unfold settle takeStacks
  cases hstacks : n.byNumber with
  | nil =>
      have hnone : n.unsettled = [] := by rw [unsettled, hstacks, List.map_nil]
      rw [changes, hnone, List.flatMap_nil, List.append_nil]
      rfl
  | cons entry rest =>
      rw [changes, ← flatMap_byNumber, hstacks]
      rfl

theorem add_of_crossesGraphs (n : NumberedLog) {change : Change}
    (h : change.crossesGraphs = true) :
    n.add change = { n with settled := n.changes ++ [change], byGraph := ∅ } := by
  have hadd : n.add change = { n.settle with settled := n.settle.settled ++ [change] } := by
    cases change with
    | inGraph c => cases h
    | dropEntity e => rfl
    | dropReferences e => rfl
  rw [hadd, settle_eq]

theorem drain_eq (n : NumberedLog) : n.drain = (n.changes, new n.threadSafe) := by
  rw [changes, ← flatMap_byNumber]
  rfl

/-- Both logs hold the same: what is settled, and the same stacks in the same order. -/
structure Keeps (n : NumberedLog) (log : ChangeLog) : Prop where
  numbered : n.Numbered
  settled_eq : n.settled = log.settled
  unsettled_eq : n.unsettled = log.unsettled
  threadSafe_eq : n.threadSafe = log.threadSafe

/-- Both logs give the same answers. -/
structure AnswersAs (n : NumberedLog) (log : ChangeLog) : Prop where
  changes_eq : n.changes = log.changes
  settled_eq : n.settled = log.settled
  forGraph_eq : ∀ graph, n.forGraph graph = log.forGraph graph
  size_eq : n.size = log.size
  isEmpty_eq : n.isEmpty = log.isEmpty
  hasChanges_eq : n.hasChanges = log.hasChanges
  threadSafe_eq : n.threadSafe = log.threadSafe
  drain_eq : n.drain = (log.drain.1, .new log.threadSafe)
  setThreadSafe_eq_error_iff : ∀ threadSafe obstacle,
    n.setThreadSafe threadSafe = .error obstacle ↔ log.setThreadSafe threadSafe = .error obstacle

variable {log : ChangeLog}

theorem numbered_of_byGraph_eq_empty (h : n.byGraph = ∅) : n.Numbered ∧ n.unsettled = [] := by
  have hnone : n.byNumber = [] := by
    rw [byNumber, h]
    exact List.mergeSort_nil
  refine ⟨?_, ?_⟩
  · rw [Numbered, hnone]
    exact .nil n.count
  · rw [unsettled, hnone]
    rfl

theorem keeps_new (threadSafe : Bool) : (new threadSafe).Keeps (.new threadSafe) := by
  obtain ⟨hnumbered, hunsettled⟩ := numbered_of_byGraph_eq_empty (n := new threadSafe) rfl
  exact ⟨hnumbered, rfl, hunsettled, rfl⟩

theorem Keeps.changes_eq (h : n.Keeps log) : n.changes = log.changes := by
  rw [changes, h.settled_eq, h.unsettled_eq]
  rfl

theorem Keeps.add (h : n.Keeps log) (change : Change) : (n.add change).Keeps (log.add change) := by
  cases hempty : change.isEmpty with
  | true =>
      have hsame : n.add change = n := if_pos hempty
      rw [log.add_of_isEmpty hempty, hsame]
      exact h
  | false =>
      cases hcrosses : change.crossesGraphs with
      | true =>
          rw [add_of_crossesGraphs n hcrosses, log.add_of_crossesGraphs hcrosses]
          obtain ⟨hnumbered, hunsettled⟩ := numbered_of_byGraph_eq_empty
            (n := { n with settled := n.changes ++ [change], byGraph := ∅ }) rfl
          exact ⟨hnumbered, congrArg (· ++ [change]) h.changes_eq, hunsettled, h.threadSafe_eq⟩
      | false =>
          obtain ⟨c, rfl⟩ := Change.exists_eq_inGraph hcrosses
          obtain ⟨hbyNumber, hnumbered⟩ := h.numbered.byNumber_add hempty
          have hunsettled : (n.add (.inGraph c)).unsettled =
              ChangeLog.pushOnStack c log.unsettled := by
            rw [unsettled, hbyNumber, ← h.unsettled_eq]
            exact StackEntry.map_stack_touchIn
          rw [log.add_inGraph hempty]
          refine ⟨hnumbered, ?_, hunsettled, ?_⟩
          · rw [add_inGraph n hempty]
            exact h.settled_eq
          · rw [add_inGraph n hempty]
            exact h.threadSafe_eq

/-! ## The same answers -/

theorem graphs_unsettled (n : NumberedLog) :
    n.unsettled.map GraphStack.graph = n.byNumber.map Prod.fst := by
  rw [unsettled, List.map_map]
  rfl

theorem latestIn_unsettled (n : NumberedLog) (graph : Option Term) :
    latestIn graph n.unsettled = (n.byGraph[graph]?.map NumberedStack.latest).getD [] := by
  cases hstack : n.byGraph[graph]? with
  | none =>
      refine latestIn_eq_nil fun hin => ?_
      rw [graphs_unsettled] at hin
      obtain ⟨⟨_, s⟩, hentry, rfl⟩ := List.mem_map.mp hin
      rw [getElem?_eq_some_iff.mpr hentry] at hstack
      cases hstack
  | some s =>
      have hmem : ⟨graph, s.latest⟩ ∈ n.unsettled :=
        List.mem_map.mpr ⟨(graph, s), getElem?_eq_some_iff.mp hstack, rfl⟩
      exact latestIn_of_mem (graphs_unsettled n ▸ nodup_graphs_byNumber n) hmem

theorem Keeps.size_eq (h : n.Keeps log) : n.size = log.size := by
  have hlatest := ((perm_byNumber n).flatMap_right fun entry => entry.2.latest).length_eq
  rw [size, ← hlatest, h.settled_eq, ChangeLog.size, ← h.unsettled_eq, unsettled,
    List.flatMap_map]
  rfl

theorem Keeps.hasChanges_eq (h : n.Keeps log) : n.hasChanges = log.hasChanges := by
  rw [hasChanges, ← (perm_byNumber n).any_eq, ← (perm_byNumber n).all_eq, h.settled_eq,
    ChangeLog.hasChanges, ← h.unsettled_eq, unsettled, List.any_map, List.all_map]
  rfl

theorem Keeps.isEmpty_eq (h : n.Keeps log) : n.isEmpty = log.isEmpty :=
  congrArg (· == 0) h.size_eq

/-- Both logs switch their mode, or refuse it for the same reason. -/
theorem Keeps.setThreadSafe (h : n.Keeps log) (threadSafe : Bool) :
    (∃ n' log', n.setThreadSafe threadSafe = .ok n' ∧ log.setThreadSafe threadSafe = .ok log' ∧
      n'.Keeps log') ∨
    ∃ obstacle, n.setThreadSafe threadSafe = .error obstacle ∧
      log.setThreadSafe threadSafe = .error obstacle := by
  unfold NumberedLog.setThreadSafe ChangeLog.setThreadSafe
  rw [h.threadSafe_eq, h.isEmpty_eq]
  by_cases hmode : log.threadSafe = threadSafe
  · rw [if_pos hmode, if_pos hmode]
    exact .inl ⟨n, log, rfl, rfl, h⟩
  · rw [if_neg hmode, if_neg hmode]
    cases log.isEmpty with
    | true => exact .inl ⟨_, _, rfl, rfl, keeps_new threadSafe⟩
    | false => exact .inr ⟨_, rfl, rfl⟩

theorem Keeps.answersAs (h : n.Keeps log) : n.AnswersAs log where
  changes_eq := h.changes_eq
  settled_eq := h.settled_eq
  forGraph_eq graph := by
    rw [log.forGraph_eq, ChangeLog.latestFor, ← h.unsettled_eq, latestIn_unsettled, forGraph,
      h.settled_eq]
    cases n.byGraph[graph]? with
    | none => rfl
    | some stack => rfl
  size_eq := h.size_eq
  isEmpty_eq := h.isEmpty_eq
  hasChanges_eq := h.hasChanges_eq
  threadSafe_eq := h.threadSafe_eq
  drain_eq := by
    rw [NumberedLog.drain_eq, h.changes_eq, h.threadSafe_eq]
    rfl
  setThreadSafe_eq_error_iff threadSafe obstacle := by
    rcases h.setThreadSafe threadSafe with ⟨_, _, hn, hlog, -⟩ | ⟨_, hn, hlog⟩
    · simp only [hn, hlog, reduceCtorEq]
    · rw [hn, hlog, Except.error.injEq, Except.error.injEq]

/-! ## The same log after every call -/

theorem Keeps.step (h : n.Keeps log) (operation : ChangeLog.Operation) :
    (n.step operation).Keeps (log.step operation) := by
  cases operation with
  | add change => exact h.add change
  | drain =>
      show n.drain.2.Keeps log.drain.2
      rw [n.drain_eq, h.threadSafe_eq]
      exact keeps_new log.threadSafe
  | clear =>
      show (new n.threadSafe).Keeps (.new log.threadSafe)
      rw [h.threadSafe_eq]
      exact keeps_new log.threadSafe
  | setThreadSafe threadSafe =>
      unfold NumberedLog.step ChangeLog.step
      rcases h.setThreadSafe threadSafe with ⟨_, _, hn, hlog, hkeeps⟩ | ⟨_, hn, hlog⟩
      · simp only [hn, hlog]
        exact hkeeps
      · simp only [hn, hlog]
        exact h

theorem keeps_run (threadSafe : Bool) (operations : List ChangeLog.Operation) :
    ((new threadSafe).run operations).Keeps ((ChangeLog.new threadSafe).run operations) :=
  List.foldl_rel (keeps_new threadSafe) fun operation _ _ _ h => h.step operation

/-- A log that keeps its stacks in a map answers all questions like one that keeps them
in the order in which their graphs were first touched, after all calls. -/
theorem answersAs_run (threadSafe : Bool) (operations : List ChangeLog.Operation) :
    ((new threadSafe).run operations).AnswersAs ((ChangeLog.new threadSafe).run operations) :=
  (keeps_run threadSafe operations).answersAs

/-- The same after changes were added. -/
theorem answersAs_addAll (threadSafe : Bool) (changes : List Change) :
    ((new threadSafe).addAll changes).AnswersAs ((ChangeLog.new threadSafe).addAll changes) := by
  have hrun := answersAs_run threadSafe (changes.map .add)
  rw [run, ChangeLog.run, List.foldl_map, List.foldl_map] at hrun
  exact hrun

end NumberedLog

end QuadSession

/-!
# What a run keeps

A run takes one step after the other, and often a step is harmless only in some
states.  The condition is then about the state in which the step is taken, which is
the one that the steps before it have led to.
-/

namespace QuadSession

variable {σ α : Type} {step : σ → α → σ} {inv : σ → Prop} {permitted : σ → α → Prop}

/-- What holds at the start of a run and is kept by every permitted step, holds in
each state of a run of permitted steps. -/
theorem forall_foldl_take (hstep : ∀ s a, inv s → permitted s a → inv (step s a)) {s : σ}
    (hs : inv s) {steps : List α}
    (hpermitted : ∀ n a, steps[n]? = some a → permitted ((steps.take n).foldl step s) a) :
    ∀ n, inv ((steps.take n).foldl step s) := by
  induction steps generalizing s with
  | nil =>
      intro n
      rw [List.take_nil]
      exact hs
  | cons a rest ih =>
      intro n
      cases n with
      | zero => exact hs
      | succ n =>
          have hfirst : permitted s a := hpermitted 0 a rfl
          exact ih (hstep s a hs hfirst) (fun m b hb => hpermitted (m + 1) b hb) n

theorem foldl_of_permitted (hstep : ∀ s a, inv s → permitted s a → inv (step s a)) {s : σ}
    (hs : inv s) {steps : List α}
    (hpermitted : ∀ n a, steps[n]? = some a → permitted ((steps.take n).foldl step s) a) :
    inv (steps.foldl step s) := by
  have hlast := forall_foldl_take hstep hs hpermitted steps.length
  rwa [List.take_length] at hlast

end QuadSession

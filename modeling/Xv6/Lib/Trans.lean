/-!
# Runs of a transition system

`step s a = none` means that action `a` is not enabled in `s`. A condition on each step stands for the protocol of the callers.
-/

namespace Xv6.Lib

variable {σ α : Type} {init : σ → Prop} {step : σ → α → Option σ} {ok : σ → α → Prop}

/-- The states reached from `init` by steps that all meet `ok`. -/
inductive Reach (init : σ → Prop) (step : σ → α → Option σ) (ok : σ → α → Prop) : σ → Prop where
  | init {s : σ} : init s → Reach init step ok s
  | step {s s' : σ} {a : α} : Reach init step ok s → ok s a → step s a = some s' → Reach init step ok s'

theorem Reach.inv {P : σ → Prop} (h0 : ∀ s, init s → P s)
    (hs : ∀ s a s', P s → ok s a → step s a = some s' → P s') {s : σ} (h : Reach init step ok s) : P s := by
  induction h with
  | init hi => exact h0 _ hi
  | step _ hok hst ih => exact hs _ _ _ ih hok hst

theorem Reach.mono {ok' : σ → α → Prop} (h : ∀ s a, ok s a → ok' s a) {s : σ} (hr : Reach init step ok s) : Reach init step ok' s := by
  induction hr with
  | init hi => exact .init hi
  | step _ hok hst ih => exact .step ih (h _ _ hok) hst

/-- The run of a list of actions, each of which must meet `ok` where it is taken. -/
def runs (step : σ → α → Option σ) (ok : σ → α → Prop) [∀ s a, Decidable (ok s a)] : σ → List α → Option σ
  | s, [] => some s
  | s, a :: as => if ok s a then (step s a).bind (runs step ok · as) else none

theorem Reach.runs [∀ s a, Decidable (ok s a)] {as : List α} {s s' : σ}
    (hr : Reach init step ok s) (h : runs step ok s as = some s') : Reach init step ok s' := by
  induction as generalizing s with
  | nil => simp only [Lib.runs, Option.some.injEq] at h; exact h ▸ hr
  | cons a as ih =>
    simp only [Lib.runs] at h
    split at h
    · rename_i ha
      obtain ⟨s1, h1, h2⟩ := Option.bind_eq_some_iff.mp h
      exact ih (.step hr ha h1) h2
    · cases h

/-- A run that ends in a state with property `P`, found by evaluation. -/
theorem Reach.of_runs [∀ s a, Decidable (ok s a)] (as : List α) (P : σ → Prop) [DecidablePred P] {s : σ}
    (hr : Reach init step ok s) (h : (Lib.runs step ok s as).any (P ·) = true) : ∃ s', Reach init step ok s' ∧ P s' := by
  obtain ⟨s', hs', hp⟩ := (Option.any_eq_true _ _).mp h
  exact ⟨s', hr.runs hs', of_decide_eq_true hp⟩

end Xv6.Lib

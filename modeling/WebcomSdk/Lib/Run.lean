import Mathlib.Tactic

/-!
Runs of a partial step function. `step s a = none` means that the program
does not get past the action `a` in the state `s`; `ok s a` is what the runs
under consideration promise about each of their steps.
-/

namespace WebcomSdk.Lib

variable {σ α : Type*}

/-- The states that runs from `s₀` reach when all their steps meet `ok`. -/
inductive Reach (step : σ → α → Option σ) (ok : σ → α → Prop) (s₀ : σ) : σ → Prop
  | start : Reach step ok s₀ s₀
  | step {s s' : σ} {a : α} (run : Reach step ok s₀ s) (hok : ok s a)
      (hstep : step s a = some s') : Reach step ok s₀ s'

variable {step : σ → α → Option σ} {ok : σ → α → Prop} {s₀ s : σ}

/-- **The invariant rule.** What holds at the start and is kept by every
permitted step holds in every state reached. -/
theorem Reach.invariant {I : σ → Prop} (run : Reach step ok s₀ s) (hstart : I s₀)
    (hkeep : ∀ s a s', I s → ok s a → step s a = some s' → I s') : I s := by
  induction run with
  | start => exact hstart
  | step _ hok hstep ih => exact hkeep _ _ _ ih hok hstep

/-- A sequence of steps, stopped at the first that `step` or `ok` refuses. -/
def runSteps (step : σ → α → Option σ) (ok : σ → α → Prop) [∀ s a, Decidable (ok s a)] :
    σ → List α → Option σ
  | s, [] => some s
  | s, a :: as => if ok s a then (step s a).bind fun s' => runSteps step ok s' as else none

theorem Reach.of_runSteps [∀ s a, Decidable (ok s a)] {as : List α} {s' : σ}
    (run : Reach step ok s₀ s) (has : runSteps step ok s as = some s') :
    Reach step ok s₀ s' := by
  induction as generalizing s with
  | nil => exact Option.some.inj has ▸ run
  | cons a as ih =>
      rw [runSteps] at has
      split at has
      next hok =>
        obtain ⟨t, ht, has⟩ := Option.bind_eq_some_iff.mp has
        exact ih (.step run hok ht) has
      next => simp at has

/-- A sequence of steps that all meet `ok` wherever they are taken. -/
theorem Reach.of_foldlM {as : List α} {s' : σ} (run : Reach step ok s₀ s)
    (hok : ∀ a ∈ as, ∀ s, ok s a) (has : as.foldlM step s = some s') : Reach step ok s₀ s' := by
  induction as generalizing s with
  | nil => exact Option.some.inj has ▸ run
  | cons a as ih =>
      rw [List.forall_mem_cons] at hok
      rw [List.foldlM_cons] at has
      obtain ⟨t, ht, has⟩ := Option.bind_eq_some_iff.mp has
      exact ih (.step run (hok.1 s) ht) hok.2 has

theorem Reach.trans {t : σ} (run : Reach step ok s₀ s) (run' : Reach step ok s t) :
    Reach step ok s₀ t := by
  induction run' with
  | start => exact run
  | step _ hok hstep ih => exact .step ih hok hstep

/-- Fewer promises, more runs. -/
theorem Reach.mono {ok' : σ → α → Prop} (run : Reach step ok s₀ s)
    (h : ∀ s a, ok s a → ok' s a) : Reach step ok' s₀ s := by
  induction run with
  | start => exact .start
  | step _ hok hstep ih => exact .step ih (h _ _ hok) hstep

/-- **The transfer rule.** A run is a run of another system whose steps are the
same as long as an invariant holds. -/
theorem Reach.transfer {step' : σ → α → Option σ} {ok' : σ → α → Prop} {I : σ → Prop}
    (run : Reach step ok s₀ s) (hstart : I s₀)
    (hsame : ∀ s a s', I s → ok s a → step s a = some s' → ok' s a ∧ step' s a = some s' ∧ I s') :
    Reach step' ok' s₀ s ∧ I s := by
  induction run with
  | start => exact ⟨.start, hstart⟩
  | step _ hok hstep ih =>
      obtain ⟨hok', hstep', hkeep⟩ := hsame _ _ _ ih.2 hok hstep
      exact ⟨.step ih.1 hok' hstep', hkeep⟩

end WebcomSdk.Lib

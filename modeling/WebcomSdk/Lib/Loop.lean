import Mathlib.Tactic

/-!
Loops of a partial step function, run with fuel. `step s = none` says that the
loop is over in the state `s`.
-/

namespace WebcomSdk.Lib

variable {σ : Type*}

/-- The state in which the loop is over. `none` says that there are `fuel` passes
before that. -/
def runLoop (step : σ → Option σ) : ℕ → σ → Option σ
  | 0, _ => none
  | fuel + 1, s =>
      match step s with
      | none => some s
      | some s' => runLoop step fuel s'

/-- `k` passes lead from `s` to `t`. -/
def Advances (step : σ → Option σ) (k : ℕ) (s t : σ) : Prop :=
  ∀ fuel, runLoop step (fuel + k) s = runLoop step fuel t

variable {step : σ → Option σ} {s t u : σ}

theorem Advances.refl (s : σ) : Advances step 0 s s := fun _ => rfl

theorem Advances.one (h : step s = some t) : Advances step 1 s t := by
  intro fuel
  rw [runLoop, h]

theorem Advances.trans {j k : ℕ} (h : Advances step j s t) (h' : Advances step k t u) :
    Advances step (k + j) s u := by
  intro fuel
  rw [← Nat.add_assoc, h, h']

theorem runLoop_done (h : step s = none) (fuel : ℕ) : runLoop step (fuel + 1) s = some s := by
  rw [runLoop, h]

theorem runLoop_mono {fuel : ℕ} (h : runLoop step fuel s = some t) (extra : ℕ) :
    runLoop step (fuel + extra) s = some t := by
  induction fuel generalizing s with
  | zero => cases h
  | succ fuel ih =>
      rw [Nat.succ_add, runLoop]
      rw [runLoop] at h
      cases hstep : step s with
      | none =>
          rw [hstep] at h
          exact h
      | some s' =>
          rw [hstep] at h
          exact ih h

theorem runLoop_unique {fuel fuel' : ℕ} (h : runLoop step fuel s = some t)
    (h' : runLoop step fuel' s = some u) : t = u := by
  have hu := runLoop_mono h' fuel
  rw [Nat.add_comm, runLoop_mono h fuel'] at hu
  exact Option.some.inj hu

/-- **The rule for endless loops.** A loop that comes back to what it has started
from is never over. -/
theorem runLoop_eq_none {I : σ → Prop} {k : ℕ} (hk : 0 < k)
    (hback : ∀ s, I s → ∃ t, Advances step k s t ∧ I t) (fuel : ℕ) (hs : I s) :
    runLoop step fuel s = none := by
  induction fuel using Nat.strongRecOn generalizing s with
  | ind fuel ih =>
      obtain ⟨t, hadv, ht⟩ := hback s hs
      by_cases hle : k ≤ fuel
      · have hfuel : fuel - k + k = fuel := by omega
        rw [← hfuel, hadv]
        exact ih (fuel - k) (by omega) ht
      · -- too little fuel for one round, and more is not enough
        rw [Option.eq_none_iff_forall_ne_some]
        intro u hu
        have hmore := runLoop_mono hu (k - fuel)
        have hfuel : fuel + (k - fuel) = 0 + k := by omega
        rw [hfuel, hadv] at hmore
        cases hmore

end WebcomSdk.Lib

import Mathlib.Data.List.GetD
import Mathlib.Tactic

/-!
Binary search between two integer bounds. `probe i` is how the entry `i` of the
table compares to what is looked for.
-/

namespace WebcomSdk.Lib

/-- The loop between `min` and `max`, both included. -/
def bisect (probe : ℕ → Ordering) (min max : ℤ) : Option ℕ :=
  if min ≤ max then
    let mid := min + (max - min) / 2
    match probe mid.toNat with
    | .lt => bisect probe (mid + 1) max
    | .gt => bisect probe min (mid - 1)
    | .eq => some mid.toNat
  else none
termination_by (max + 1 - min).toNat

/-- The entries below `n` are in ascending order. -/
structure Ascends (probe : ℕ → Ordering) (n : ℕ) : Prop where
  lt : ∀ i j, i ≤ j → j < n → probe j = .lt → probe i = .lt
  gt : ∀ i j, i ≤ j → j < n → probe i = .gt → probe j = .gt

variable {probe : ℕ → Ordering} {n : ℕ}

theorem bisect_sound {min max : ℤ} {i : ℕ} (h : bisect probe min max = some i) (hmin : 0 ≤ min) :
    probe i = .eq ∧ min ≤ i ∧ i ≤ max := by
  fun_induction bisect probe min max with
  | case1 min max hle mid hlt ih =>
      obtain ⟨hprobe, hlow, hhigh⟩ := ih h (by omega)
      exact ⟨hprobe, by omega, hhigh⟩
  | case2 min max hle mid hgt ih =>
      obtain ⟨hprobe, hlow, hhigh⟩ := ih h hmin
      exact ⟨hprobe, hlow, by omega⟩
  | case3 min max hle mid heq =>
      obtain rfl := Option.some.inj h
      exact ⟨heq, by omega, by omega⟩
  | case4 min max hle => cases h

/-- What lies between the bounds is found. -/
theorem bisect_complete (hp : Ascends probe n) {min max : ℤ} (hmin : 0 ≤ min) (hmax : max < n)
    {i : ℕ} (hi : min ≤ i) (hi' : i ≤ max) (heq : probe i = .eq) :
    ∃ j, bisect probe min max = some j := by
  fun_induction bisect probe min max with
  | case1 min max hle mid hlt ih =>
      refine ih (by omega) hmax ?_ hi'
      -- an entry at or before `mid` is too small
      by_contra hbefore
      have := hp.lt i mid.toNat (by omega) (by omega) hlt
      rw [heq] at this
      cases this
  | case2 min max hle mid hgt ih =>
      refine ih hmin (by omega) hi ?_
      by_contra hafter
      have := hp.gt mid.toNat i (by omega) (by omega) hgt
      rw [heq] at this
      cases this
  | case3 min max hle mid heq => exact ⟨_, rfl⟩
  | case4 min max hle => exact absurd (hi.trans hi') hle

section Keys

variable {κ : Type*} {cmp : κ → κ → Ordering} {keys : List κ}

open Std

/-- Keys in strictly ascending order. -/
def SortedBy (cmp : κ → κ → Ordering) (keys : List κ) : Prop :=
  keys.Pairwise fun a b => cmp a b = .lt

theorem SortedBy.isLE [ReflCmp cmp] (h : SortedBy cmp keys) {i j : ℕ} (hij : i ≤ j)
    (hj : j < keys.length) (d : κ) : (cmp (keys.getD i d) (keys.getD j d)).isLE := by
  rw [List.getD_eq_getElem _ _ (by omega), List.getD_eq_getElem _ _ hj]
  rcases Nat.lt_or_eq_of_le hij with hlt | rfl
  · rw [List.pairwise_iff_getElem.mp h i j _ hj hlt]
    rfl
  · have hself : cmp keys[i] keys[i] = .eq := ReflCmp.compare_self
    rw [hself]
    rfl

theorem SortedBy.ascends [TransCmp cmp] (h : SortedBy cmp keys) (d x : κ) :
    Ascends (fun i => cmp (keys.getD i d) x) keys.length where
  lt i j hij hj hlt := TransCmp.lt_of_isLE_of_lt (h.isLE hij hj d) hlt
  gt i j hij hj hgt := by
    rw [OrientedCmp.gt_iff_lt] at hgt ⊢
    exact TransCmp.lt_of_lt_of_isLE hgt (h.isLE hij hj d)

/-- What the search finds is the key. -/
theorem bisect_keys [LawfulEqCmp cmp] {d x : κ} {i : ℕ}
    (hfound : bisect (fun i => cmp (keys.getD i d) x) 0 (keys.length - 1) = some i) :
    keys[i]? = some x := by
  obtain ⟨heq, -, hi⟩ := bisect_sound hfound le_rfl
  have hlt : i < keys.length := by omega
  rw [List.getD_eq_getElem _ _ hlt] at heq
  rw [List.getElem?_eq_getElem hlt, LawfulEqCmp.compare_eq_iff_eq.mp heq]

/-- Among sorted keys the search misses none. -/
theorem bisect_keys_of_mem [TransCmp cmp] (h : SortedBy cmp keys) (d : κ) {x : κ} (hx : x ∈ keys) :
    ∃ i, bisect (fun i => cmp (keys.getD i d) x) 0 (keys.length - 1) = some i := by
  obtain ⟨i, hlt, rfl⟩ := List.getElem_of_mem hx
  refine bisect_complete (h.ascends d _) le_rfl (by omega) (i := i) (by omega) (by omega) ?_
  rw [List.getD_eq_getElem _ _ hlt]
  exact ReflCmp.compare_self

end Keys

end WebcomSdk.Lib

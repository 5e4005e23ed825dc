import Mathlib.Tactic

/-!
Prefixes under the lexicographic order of lists. The lists that extend a given
one are contiguous, with that one first, so a walk through a sorted list can
stop at the first element that does not extend it.
-/

namespace WebcomSdk.Lib

open Std

variable {α β : Type*} {cmp : α → α → Ordering}

theorem compareLex_of_prefix [ReflCmp cmp] {p q : List α} (h : p <+: q) :
    List.compareLex cmp p q ≠ .gt := by
  obtain ⟨t, rfl⟩ := h
  induction p with
  | nil => cases t <;> simp [List.compareLex]
  | cons x p ih => simpa [List.compareLex, ReflCmp.compare_self] using ih

/-- What lies between two extensions of `p` extends it, as long as no two of
the elements that occur are below each other. -/
theorem prefix_of_between_on [ReflCmp cmp] {S : Set α}
    (hanti : ∀ x ∈ S, ∀ y ∈ S, cmp x y ≠ .gt → cmp y x ≠ .gt → x = y) {p a b c : List α}
    (hp : ∀ x ∈ p, x ∈ S) (hb : ∀ y ∈ b, y ∈ S) (ha : p <+: a) (hc : p <+: c)
    (hab : List.compareLex cmp a b ≠ .gt) (hbc : List.compareLex cmp b c ≠ .gt) : p <+: b := by
  induction p generalizing a b c with
  | nil => exact List.nil_prefix
  | cons x p ih =>
      obtain ⟨a', rfl⟩ := ha
      obtain ⟨c', rfl⟩ := hc
      cases b with
      | nil => simp [List.compareLex] at hab
      | cons y b =>
          rw [List.forall_mem_cons] at hp hb
          simp only [List.cons_append, List.compareLex_cons_cons] at hab hbc
          -- the heads are squeezed: `x ≤ y ≤ x`
          have hxy : cmp x y ≠ .gt := fun h => hab (by simp [h])
          have hyx : cmp y x ≠ .gt := fun h => hbc (by simp [h])
          obtain rfl := hanti x hp.1 y hb.1 hxy hyx
          simp only [ReflCmp.compare_self, Ordering.then] at hab hbc
          exact List.cons_prefix_cons.mpr
            ⟨rfl, ih hp.2 hb.2 (List.prefix_append p a') (List.prefix_append p c') hab hbc⟩

theorem prefix_of_between [TransCmp cmp] [LawfulEqCmp cmp] {p a b c : List α}
    (ha : p <+: a) (hc : p <+: c) (hab : List.compareLex cmp a b ≠ .gt)
    (hbc : List.compareLex cmp b c ≠ .gt) : p <+: b := by
  have hanti : ∀ x ∈ (Set.univ : Set α), ∀ y ∈ (Set.univ : Set α),
      cmp x y ≠ .gt → cmp y x ≠ .gt → x = y := by
    intro x _ y _ hxy hyx
    have heq : cmp x y = .eq := by
      cases h : cmp x y with
      | lt => simp [OrientedCmp.gt_of_lt h] at hyx
      | eq => rfl
      | gt => exact absurd h hxy
    exact LawfulEqCmp.compare_eq_iff_eq.mp heq
  exact prefix_of_between_on hanti (fun _ _ => trivial) (fun _ _ => trivial) ha hc hab hbc

/-- In a sorted list that starts at `p` or above, the elements that extend `p`
are an initial segment. -/
theorem takeWhile_prefix_eq_filter [BEq α] [LawfulBEq α] [TransCmp cmp] [LawfulEqCmp cmp]
    {p : List α} {l : List (List α × β)}
    (hsorted : l.Pairwise fun a b => List.compareLex cmp a.1 b.1 = .lt)
    (hstart : ∀ e ∈ l, List.compareLex cmp p e.1 ≠ .gt) :
    l.takeWhile (fun e => p.isPrefixOf e.1) = l.filter fun e => p.isPrefixOf e.1 := by
  induction l with
  | nil => rfl
  | cons e l ih =>
      obtain ⟨he, hl⟩ := List.pairwise_cons.mp hsorted
      rw [List.takeWhile_cons, List.filter_cons]
      by_cases hp : p.isPrefixOf e.1
      · simp only [hp, if_true]
        rw [ih hl fun e' he' => hstart e' (List.mem_cons_of_mem _ he')]
      · simp only [hp]
        refine (List.filter_eq_nil_iff.mpr fun e' he' hp' => hp ?_).symm
        rw [List.isPrefixOf_iff_prefix] at hp' ⊢
        exact prefix_of_between List.prefix_rfl hp' (hstart e List.mem_cons_self)
          (by simp [he e' he'])

end WebcomSdk.Lib

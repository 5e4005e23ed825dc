import Mathlib.Tactic

/-!
The outer join of two association lists sorted by key, by one pass over both:
each key of either list once, with the value it has in the first list and the
one it has in the second.
-/

namespace WebcomSdk.Lib

open Std

variable {κ α β : Type*}

/-- The keys are strictly increasing. -/
def SortedKeys (cmp : κ → κ → Ordering) (l : List (κ × α)) : Prop :=
  l.Pairwise fun a b => cmp a.1 b.1 = .lt

def outerJoin (cmp : κ → κ → Ordering) :
    List (κ × α) → List (κ × β) → List (κ × Option α × Option β)
  | [], bs => bs.map fun b => (b.1, none, some b.2)
  | a :: as, [] => (a.1, some a.2, none) :: outerJoin cmp as []
  | a :: as, b :: bs =>
      match cmp a.1 b.1 with
      | .lt => (a.1, some a.2, none) :: outerJoin cmp as (b :: bs)
      | .eq => (a.1, some a.2, some b.2) :: outerJoin cmp as bs
      | .gt => (b.1, none, some b.2) :: outerJoin cmp (a :: as) bs
termination_by as bs => as.length + bs.length

variable {cmp : κ → κ → Ordering} {as : List (κ × α)} {bs : List (κ × β)}

theorem SortedKeys.not_mem [ReflCmp cmp] {k : κ} (h : ∀ a ∈ as, cmp k a.1 = .lt) (x : α) :
    (k, x) ∉ as := by
  intro hmem
  have hself : cmp k k = .eq := ReflCmp.compare_self
  rw [h _ hmem] at hself
  cases hself

/-- A key of the join is above every lower bound of the keys of both lists. -/
theorem outerJoin_above {k : κ} (has : ∀ a ∈ as, cmp k a.1 = .lt)
    (hbs : ∀ b ∈ bs, cmp k b.1 = .lt) : ∀ e ∈ outerJoin cmp as bs, cmp k e.1 = .lt := by
  fun_induction outerJoin cmp as bs with
  | case1 bs =>
      intro e he
      obtain ⟨b, hb, rfl⟩ := List.mem_map.mp he
      exact hbs b hb
  | case2 a as ih =>
      rw [List.forall_mem_cons] at has
      exact List.forall_mem_cons.mpr ⟨has.1, ih has.2 hbs⟩
  | case3 a as b bs hcmp ih =>
      rw [List.forall_mem_cons] at has
      exact List.forall_mem_cons.mpr ⟨has.1, ih has.2 hbs⟩
  | case4 a as b bs hcmp ih =>
      rw [List.forall_mem_cons] at has hbs
      exact List.forall_mem_cons.mpr ⟨has.1, ih has.2 hbs.2⟩
  | case5 a as b bs hcmp ih =>
      rw [List.forall_mem_cons] at hbs
      exact List.forall_mem_cons.mpr ⟨hbs.1, ih has hbs.2⟩

theorem outerJoin_self [ReflCmp cmp] (as : List (κ × α)) :
    outerJoin cmp as as = as.map fun a => (a.1, some a.2, some a.2) := by
  induction as with
  | nil => simp [outerJoin]
  | cons a as ih =>
      have hself : cmp a.1 a.1 = .eq := ReflCmp.compare_self
      rw [outerJoin, hself]
      simp only [ih, List.map_cons]

theorem SortedKeys.above_head [TransCmp cmp] {k : κ} {a : κ × α} (h : SortedKeys cmp (a :: as))
    (hk : cmp k a.1 = .lt) : ∀ a' ∈ a :: as, cmp k a'.1 = .lt := by
  obtain ⟨hhead, -⟩ := List.pairwise_cons.mp h
  exact List.forall_mem_cons.mpr ⟨hk, fun a' ha' => TransCmp.lt_trans hk (hhead a' ha')⟩

/-- The keys of the join are those of both lists. -/
theorem key_mem_outerJoin [LawfulEqCmp cmp] {k : κ} :
    k ∈ (outerJoin cmp as bs).map Prod.fst ↔ k ∈ as.map Prod.fst ∨ k ∈ bs.map Prod.fst := by
  fun_induction outerJoin cmp as bs with
  | case1 bs => simp
  | case2 a as ih => simp [ih]
  | case3 a as b bs hcmp ih =>
      simp only [List.map_cons, List.mem_cons] at ih ⊢
      rw [ih, or_assoc]
  | case4 a as b bs hcmp ih =>
      have heq : a.1 = b.1 := LawfulEqCmp.compare_eq_iff_eq.mp hcmp
      simp only [List.map_cons, List.mem_cons, ih, heq]
      tauto
  | case5 a as b bs hcmp ih =>
      simp only [List.map_cons, List.mem_cons] at ih ⊢
      rw [ih]
      tauto

variable [TransCmp cmp] [LawfulEqCmp cmp]

/-- **The join is sorted.** -/
theorem sortedKeys_outerJoin (has : SortedKeys cmp as) (hbs : SortedKeys cmp bs) :
    SortedKeys cmp (outerJoin cmp as bs) := by
  fun_induction outerJoin cmp as bs with
  | case1 bs => exact List.pairwise_map.mpr hbs
  | case2 a as ih =>
      obtain ⟨ha, has⟩ := List.pairwise_cons.mp has
      exact List.pairwise_cons.mpr ⟨outerJoin_above ha (by simp), ih has hbs⟩
  | case3 a as b bs hcmp ih =>
      obtain ⟨ha, has⟩ := List.pairwise_cons.mp has
      exact List.pairwise_cons.mpr ⟨outerJoin_above ha (hbs.above_head hcmp), ih has hbs⟩
  | case4 a as b bs hcmp ih =>
      obtain ⟨ha, has⟩ := List.pairwise_cons.mp has
      obtain ⟨hb, hbs⟩ := List.pairwise_cons.mp hbs
      have heq : a.1 = b.1 := LawfulEqCmp.compare_eq_iff_eq.mp hcmp
      exact List.pairwise_cons.mpr ⟨outerJoin_above ha (heq ▸ hb), ih has hbs⟩
  | case5 a as b bs hcmp ih =>
      have hlt : cmp b.1 a.1 = .lt := OrientedCmp.lt_of_gt hcmp
      obtain ⟨hb, hbs⟩ := List.pairwise_cons.mp hbs
      exact List.pairwise_cons.mpr ⟨outerJoin_above (has.above_head hlt) hb, ih has hbs⟩

/-- The value that a key has in a list. -/
def HasValue (l : List (κ × α)) (k : κ) (x : Option α) : Prop := ∀ a, x = some a ↔ (k, a) ∈ l

omit [LawfulEqCmp cmp] in
theorem hasValue_head {a : κ × α} (has : ∀ a' ∈ as, cmp a.1 a'.1 = .lt) :
    HasValue (a :: as) a.1 (some a.2) := by
  intro a'
  constructor
  · rintro ⟨⟩
    exact List.mem_cons_self
  · intro hmem
    rcases List.mem_cons.mp hmem with heq | hmem
    · rw [← heq]
    · exact absurd hmem (SortedKeys.not_mem has a')

omit [LawfulEqCmp cmp] in
theorem hasValue_none {k : κ} (has : ∀ a ∈ as, cmp k a.1 = .lt) : HasValue as k none := by
  intro a
  exact ⟨nofun, fun hmem => absurd hmem (SortedKeys.not_mem has a)⟩

omit [LawfulEqCmp cmp] in
theorem HasValue.cons {a : κ × α} {k : κ} {x : Option α} (h : HasValue as k x)
    (hk : cmp a.1 k = .lt) : HasValue (a :: as) k x := by
  intro a'
  rw [h a', List.mem_cons]
  refine ⟨.inr, fun hmem => hmem.resolve_left ?_⟩
  rintro rfl
  have hself : cmp k k = .eq := ReflCmp.compare_self
  rw [hk] at hself
  cases hself

theorem HasValue.unique {l : List (κ × α)} {k : κ} {x x' : Option α} (h : HasValue l k x)
    (h' : HasValue l k x') : x = x' := by
  apply Option.ext
  intro a
  rw [h a, h' a]

theorem HasValue.eq_none_iff {l : List (κ × α)} {k : κ} {x : Option α} (h : HasValue l k x) :
    x = none ↔ k ∉ l.map Prod.fst := by
  constructor
  · rintro rfl hmem
    obtain ⟨e, he, rfl⟩ := List.mem_map.mp hmem
    exact absurd ((h e.2).mpr he) (by simp)
  · intro hnot
    by_contra hsome
    obtain ⟨a, ha⟩ := Option.ne_none_iff_exists'.mp hsome
    exact hnot (List.mem_map.mpr ⟨_, (h a).mp ha, rfl⟩)

theorem SortedKeys.exists_hasValue (h : SortedKeys cmp as) (k : κ) : ∃ x, HasValue as k x := by
  induction as with
  | nil => exact ⟨none, fun a => by simp⟩
  | cons a as ih =>
      obtain ⟨ha, has⟩ := List.pairwise_cons.mp h
      cases hcmp : cmp a.1 k with
      | lt =>
          obtain ⟨x, hx⟩ := ih has
          exact ⟨x, hx.cons hcmp⟩
      | eq =>
          obtain rfl := LawfulEqCmp.compare_eq_iff_eq.mp hcmp
          exact ⟨some a.2, hasValue_head ha⟩
      | gt => exact ⟨none, hasValue_none (h.above_head (OrientedCmp.lt_of_gt hcmp))⟩

/-- The join has the values of both lists. -/
theorem hasValue_of_mem_outerJoin (has : SortedKeys cmp as) (hbs : SortedKeys cmp bs) :
    ∀ e ∈ outerJoin cmp as bs, HasValue as e.1 e.2.1 ∧ HasValue bs e.1 e.2.2 := by
  fun_induction outerJoin cmp as bs with
  | case1 bs =>
      induction bs with
      | nil => simp
      | cons b bs ih =>
          obtain ⟨hb, hbs⟩ := List.pairwise_cons.mp hbs
          refine List.forall_mem_cons.mpr ⟨⟨?_, hasValue_head hb⟩, fun e he => ?_⟩
          · exact fun a => by simp
          · obtain ⟨b', hb', rfl⟩ := List.mem_map.mp he
            exact ⟨fun a => by simp, (ih hbs _ he).2.cons (hb b' hb')⟩
  | case2 a as ih =>
      obtain ⟨ha, has⟩ := List.pairwise_cons.mp has
      refine List.forall_mem_cons.mpr ⟨⟨hasValue_head ha, fun b => by simp⟩, fun e he => ?_⟩
      have hlt := outerJoin_above ha (by simp) e he
      exact ⟨(ih has hbs e he).1.cons hlt, (ih has hbs e he).2⟩
  | case3 a as b bs hcmp ih =>
      obtain ⟨ha, has⟩ := List.pairwise_cons.mp has
      have hb := hbs.above_head hcmp
      refine List.forall_mem_cons.mpr ⟨⟨hasValue_head ha, hasValue_none hb⟩, fun e he => ?_⟩
      have hlt := outerJoin_above ha hb e he
      exact ⟨(ih has hbs e he).1.cons hlt, (ih has hbs e he).2⟩
  | case4 a as b bs hcmp ih =>
      obtain ⟨ha, has⟩ := List.pairwise_cons.mp has
      obtain ⟨hb, hbs⟩ := List.pairwise_cons.mp hbs
      have heq : a.1 = b.1 := LawfulEqCmp.compare_eq_iff_eq.mp hcmp
      refine List.forall_mem_cons.mpr ⟨⟨hasValue_head ha, ?_⟩, fun e he => ?_⟩
      · exact heq ▸ hasValue_head hb
      · have hlt := outerJoin_above ha (heq ▸ hb) e he
        exact ⟨(ih has hbs e he).1.cons hlt, (ih has hbs e he).2.cons (heq ▸ hlt)⟩
  | case5 a as b bs hcmp ih =>
      have ha := has.above_head (OrientedCmp.lt_of_gt hcmp)
      obtain ⟨hb, hbs⟩ := List.pairwise_cons.mp hbs
      refine List.forall_mem_cons.mpr ⟨⟨hasValue_none ha, hasValue_head hb⟩, fun e he => ?_⟩
      have hlt := outerJoin_above ha hb e he
      exact ⟨(ih has hbs e he).1, (ih has hbs e he).2.cons hlt⟩

/-- **The join holds each key of either list** with its values. -/
theorem mem_outerJoin (has : SortedKeys cmp as) (hbs : SortedKeys cmp bs) {k : κ} {x : Option α}
    {y : Option β} (hx : HasValue as k x) (hy : HasValue bs k y) :
    (k, x, y) ∈ outerJoin cmp as bs ↔ x ≠ none ∨ y ≠ none := by
  have hkeys : (∃ a, x = some a) ∨ (∃ b, y = some b) ↔ k ∈ (outerJoin cmp as bs).map Prod.fst := by
    rw [key_mem_outerJoin]
    simp [hx _, hy _]
  rw [Option.ne_none_iff_exists', Option.ne_none_iff_exists', hkeys, List.mem_map]
  constructor
  · intro h
    exact ⟨_, h, rfl⟩
  · rintro ⟨e, he, rfl⟩
    obtain ⟨hx', hy'⟩ := hasValue_of_mem_outerJoin has hbs e he
    rw [hx.unique hx', hy.unique hy']
    exact he

end WebcomSdk.Lib

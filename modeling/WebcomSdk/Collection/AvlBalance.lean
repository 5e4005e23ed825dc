import WebcomSdk.Lib.Run
import WebcomSdk.Collection.Avl

/-!
Heights and balance of the tree. `avl_balance` repairs one imbalance of two
with one single or double rotation. Insertion never asks for more. Removal
hangs the whole right subtree of the removed node under the rightmost node of
its left subtree, and the imbalance there can be anything.
-/

namespace WebcomSdk.Collection

open WebcomSdk.Lib AvlTree

variable {κ β : Type}

namespace AvlTree

/-- The height counted on the tree itself, whatever its nodes store. -/
def trueHeight : AvlTree κ β → ℕ
  | nil => 0
  | node l _ _ r _ => max l.trueHeight r.trueHeight + 1

/-- Every node stores its true height, and the heights of its two children
differ by at most one. -/
def HeightBalanced : AvlTree κ β → Prop
  | nil => True
  | node l k v r h =>
      l.HeightBalanced ∧ r.HeightBalanced ∧ h = (node l k v r h).trueHeight ∧
        l.trueHeight ≤ r.trueHeight + 1 ∧ r.trueHeight ≤ l.trueHeight + 1

instance decidableHeightBalanced : (t : AvlTree κ β) → Decidable t.HeightBalanced
  | nil => inferInstanceAs (Decidable True)
  | node l _ _ r _ =>
      have := decidableHeightBalanced l
      have := decidableHeightBalanced r
      inferInstanceAs (Decidable (_ ∧ _))

@[simp] theorem balanced_nil : (nil : AvlTree κ β).HeightBalanced := trivial

theorem HeightBalanced.height_eq {t : AvlTree κ β} (ht : t.HeightBalanced) :
    t.height = t.trueHeight := by
  cases t with
  | nil => rfl
  | node l k v r h => exact ht.2.2.1

/-- The invariant read at one node, in terms of the stored heights. -/
theorem balanced_node_iff {l r : AvlTree κ β} {k : κ} {v : β} {h : ℕ} :
    (node l k v r h).HeightBalanced ↔ l.HeightBalanced ∧ r.HeightBalanced ∧
      h = max l.height r.height + 1 ∧ l.height ≤ r.height + 1 ∧ r.height ≤ l.height + 1 := by
  constructor
  · rintro ⟨hl, hr, hh, hlr, hrl⟩
    rw [hl.height_eq, hr.height_eq]
    exact ⟨hl, hr, hh, hlr, hrl⟩
  · rintro ⟨hl, hr, hh, hlr, hrl⟩
    rw [hl.height_eq, hr.height_eq] at hh hlr hrl
    exact ⟨hl, hr, hh, hlr, hrl⟩

end AvlTree

/-! ### One call of `avl_balance` -/

/-- Right-heavy, the right child not leaning to the left: a single rotation. -/
theorem avlBalance_single_left {l rl rr : AvlTree κ β} {k rk : κ} {v rv : β} {h rh : ℕ}
    (hheavy : l.height + 1 < rh) (hlean : rl.height ≤ rr.height) :
    avlBalance (node l k v (node rl rk rv rr rh) h) =
      node (node l k v rl (max l.height rl.height + 1)) rk rv rr
        (max (max l.height rl.height + 1) rr.height + 1) := by
  have hd : (l.height : ℤ) - rh < -1 := by omega
  have hd' : ¬(rl.height : ℤ) - rr.height > 0 := by omega
  simp only [avlBalance, avlDelta, height_node, hd, hd', if_true, if_false, avlRotl,
    avlUpdateHeight]

/-- Right-heavy, the right child leaning to the left: a double rotation. -/
theorem avlBalance_double_left {l a b rr : AvlTree κ β} {k rk rlk : κ} {v rv rlv : β}
    {h rh rlh : ℕ} (hheavy : l.height + 1 < rh) (hlean : rr.height < rlh) :
    avlBalance (node l k v (node (node a rlk rlv b rlh) rk rv rr rh) h) =
      node (node l k v a (max l.height a.height + 1)) rlk rlv
        (node b rk rv rr (max b.height rr.height + 1))
        (max (max l.height a.height + 1) (max b.height rr.height + 1) + 1) := by
  have hd : (l.height : ℤ) - rh < -1 := by omega
  have hd' : (rlh : ℤ) - rr.height > 0 := by omega
  simp only [avlBalance, avlDelta, height_node, hd, hd', if_true, avlRotr, avlRotl,
    avlUpdateHeight]

theorem avlBalance_single_right {ll lr r : AvlTree κ β} {k lk : κ} {v lv : β} {h lh : ℕ}
    (hheavy : r.height + 1 < lh) (hlean : lr.height ≤ ll.height) :
    avlBalance (node (node ll lk lv lr lh) k v r h) =
      node ll lk lv (node lr k v r (max lr.height r.height + 1))
        (max ll.height (max lr.height r.height + 1) + 1) := by
  have hd : ¬(lh : ℤ) - r.height < -1 := by omega
  have hd' : (lh : ℤ) - r.height > 1 := by omega
  have hd'' : ¬(ll.height : ℤ) - lr.height < 0 := by omega
  simp only [avlBalance, avlDelta, height_node, hd, hd', hd'', if_true, if_false, avlRotr,
    avlUpdateHeight]

theorem avlBalance_double_right {ll a b r : AvlTree κ β} {k lk lrk : κ} {v lv lrv : β}
    {h lh lrh : ℕ} (hheavy : r.height + 1 < lh) (hlean : ll.height < lrh) :
    avlBalance (node (node ll lk lv (node a lrk lrv b lrh) lh) k v r h) =
      node (node ll lk lv a (max ll.height a.height + 1)) lrk lrv
        (node b k v r (max b.height r.height + 1))
        (max (max ll.height a.height + 1) (max b.height r.height + 1) + 1) := by
  have hd : ¬(lh : ℤ) - r.height < -1 := by omega
  have hd' : (lh : ℤ) - r.height > 1 := by omega
  have hd'' : (ll.height : ℤ) - lrh < 0 := by omega
  simp only [avlBalance, avlDelta, height_node, hd, hd', hd'', if_true, if_false, avlRotr,
    avlRotl, avlUpdateHeight]

theorem avlBalance_level {l r : AvlTree κ β} {k : κ} {v : β} {h : ℕ}
    (hlr : l.height ≤ r.height + 1) (hrl : r.height ≤ l.height + 1) :
    avlBalance (node l k v r h) = node l k v r (max l.height r.height + 1) := by
  have hd : ¬(l.height : ℤ) - r.height < -1 := by omega
  have hd' : ¬(l.height : ℤ) - r.height > 1 := by omega
  simp only [avlBalance, avlDelta, hd, hd', if_false, avlUpdateHeight]

/-- Rebalancing a node whose children are balanced and differ by at most two:
the result is balanced, and no lower than its higher child. -/
theorem avlBalance_spec {l r : AvlTree κ β} {k : κ} {v : β} {h : ℕ}
    (hl : l.HeightBalanced) (hr : r.HeightBalanced)
    (hlr : l.height ≤ r.height + 2) (hrl : r.height ≤ l.height + 2) :
    (avlBalance (node l k v r h)).HeightBalanced ∧
      max l.height r.height ≤ (avlBalance (node l k v r h)).height ∧
      (avlBalance (node l k v r h)).height ≤ max l.height r.height + 1 ∧
      (l.height ≤ r.height + 1 → r.height ≤ l.height + 1 →
        (avlBalance (node l k v r h)).height = max l.height r.height + 1) := by
  by_cases hright : l.height + 1 < r.height
  · cases r with
    | nil => simp at hright
    | node rl rk rv rr rh =>
        obtain ⟨hrl', hrr', hrh, hd₁, hd₂⟩ := balanced_node_iff.mp hr
        simp only [height_node] at hlr hrl hright
        by_cases hlean : rr.height < rl.height
        · cases rl with
          | nil => simp at hlean
          | node a rlk rlv b rlh =>
              obtain ⟨ha, hb, hrlh, hd₃, hd₄⟩ := balanced_node_iff.mp hrl'
              simp only [height_node] at hlean hd₁ hd₂ hrh
              rw [avlBalance_double_left hright hlean]
              simp only [balanced_node_iff, height_node, hl, ha, hb, hrr', true_and]
              omega
        · rw [avlBalance_single_left hright (by omega)]
          simp only [balanced_node_iff, height_node, hl, hrl', hrr', true_and]
          omega
  · by_cases hleft : r.height + 1 < l.height
    · cases l with
      | nil => simp at hleft
      | node ll lk lv lr lh =>
          obtain ⟨hll', hlr', hlh, hd₁, hd₂⟩ := balanced_node_iff.mp hl
          simp only [height_node] at hlr hrl hright hleft
          by_cases hlean : ll.height < lr.height
          · cases lr with
            | nil => simp at hlean
            | node a lrk lrv b lrh =>
                obtain ⟨ha, hb, hlrh, hd₃, hd₄⟩ := balanced_node_iff.mp hlr'
                simp only [height_node] at hlean hd₁ hd₂ hlh
                rw [avlBalance_double_right hleft hlean]
                simp only [balanced_node_iff, height_node, hr, ha, hb, hll', true_and]
                omega
          · rw [avlBalance_single_right hleft (by omega)]
            simp only [balanced_node_iff, height_node, hr, hll', hlr', true_and]
            omega
    · rw [avlBalance_level (by omega) (by omega)]
      exact ⟨balanced_node_iff.mpr ⟨hl, hr, rfl, by omega, by omega⟩,
        Nat.le_succ _, le_rfl, fun _ _ => rfl⟩

/-! ### Insertion -/

theorem avlInsertRec_balanced (cmp : κ → κ → Ordering) (key : κ) (val : β)
    {t : AvlTree κ β} (ht : t.HeightBalanced) :
    (avlInsertRec cmp key val t).HeightBalanced ∧
      t.height ≤ (avlInsertRec cmp key val t).height ∧
      (avlInsertRec cmp key val t).height ≤ t.height + 1 := by
  induction t with
  | nil => simp [avlInsertRec, balanced_node_iff]
  | node l k v r h ihl ihr =>
      obtain ⟨hl, hr, hh, hd₁, hd₂⟩ := balanced_node_iff.mp ht
      simp only [avlInsertRec, height_node]
      split
      · obtain ⟨hbal, hlow, hhigh⟩ := ihl hl
        obtain ⟨hres, hlow', hhigh', hkeep⟩ :=
          avlBalance_spec (k := k) (v := v) (h := h) hbal hr (by omega) (by omega)
        exact ⟨hres, by omega, by omega⟩
      · obtain ⟨hbal, hlow, hhigh⟩ := ihr hr
        obtain ⟨hres, hlow', hhigh', hkeep⟩ :=
          avlBalance_spec (k := k) (v := v) (h := h) hl hbal (by omega) (by omega)
        exact ⟨hres, by omega, by omega⟩

/-! ### Removal

`avl_movr` walks down the right spine of the left subtree and rebalances on
its way back. Only the bottom of the spine can meet a large imbalance: the
grafted tree against the left subtree of the rightmost node. -/

namespace AvlTree

/-- Height of the left subtree of the rightmost node. -/
def rightmostLeftHeight : AvlTree κ β → ℕ
  | nil => 0
  | node l _ _ nil _ => l.height
  | node _ _ _ (node rl k v rr h) _ => (node rl k v rr h).rightmostLeftHeight

end AvlTree

/-- The graft of `avl_movr` meets no imbalance above two: there is no left
subtree, or the right one is at most two levels higher than the left subtree
of the node it is hung under. -/
def GraftFits (l r : AvlTree κ β) : Prop :=
  l = nil ∨ r.height ≤ l.rightmostLeftHeight + 2

/-- What the bottom of the spine may hand to the level above when it is two
higher than before: a tree that leans to the left. -/
def LeansLeft (t : AvlTree κ β) (n : ℕ) : Prop :=
  ∃ a k v b k' v' c, t = node (node a k v b (n + 1)) k' v' c (n + 2) ∧
    a.HeightBalanced ∧ b.HeightBalanced ∧ c.HeightBalanced ∧
    a.height + 1 = n ∧ b.height = n ∧ c.height = n

/-- The bottom of the spine: `l` is what is left of the rightmost node and `r`
the grafted tree. -/
theorem avlBalance_graft {l r : AvlTree κ β} {k : κ} {v : β} {h : ℕ}
    (hl : l.HeightBalanced) (hr : r.HeightBalanced) (hlr : l.height ≤ r.height + 1)
    (hrl : r.height ≤ l.height + 2)
    (htop : (avlBalance (node l k v r h)).height = l.height + 3) :
    LeansLeft (avlBalance (node l k v r h)) (l.height + 1) := by
  obtain ⟨-, -, hhigh, hkeep⟩ := avlBalance_spec (k := k) (v := v) (h := h) hl hr
    (by omega) hrl
  have hheavy : l.height + 1 < r.height := by
    by_contra hcon
    have := hkeep (by omega) (by omega)
    omega
  cases r with
  | nil => simp at hheavy
  | node rl rk rv rr rh =>
      obtain ⟨hrl', hrr', hrh, hd₁, hd₂⟩ := balanced_node_iff.mp hr
      simp only [height_node] at hrl hheavy
      by_cases hlean : rr.height < rl.height
      · cases rl with
        | nil => simp at hlean
        | node a rlk rlv b rlh =>
            obtain ⟨ha, hb, hrlh, hd₃, hd₄⟩ := balanced_node_iff.mp hrl'
            simp only [height_node] at hlean hd₁ hd₂ hrh
            rw [avlBalance_double_left (by simpa using hheavy) (by simpa using hlean)] at htop
            simp only [height_node] at htop
            omega
      · rw [avlBalance_single_left (by simpa using hheavy) (by omega)] at htop ⊢
        simp only [height_node] at htop
        have hrl₁ : rl.height = l.height + 1 := by omega
        have hrr₁ : rr.height = l.height + 1 := by omega
        refine ⟨l, k, v, rl, rk, rv, rr, ?_, hl, hrl', hrr', rfl, hrl₁, hrr₁⟩
        simp [hrl₁, hrr₁]

/-- Rebalancing above a tree that leans to the left, from a left sibling up to
three levels lower: the double rotation takes the lean apart. -/
theorem avlBalance_above_leansLeft {l t : AvlTree κ β} {k : κ} {v : β} {h n : ℕ}
    (hl : l.HeightBalanced) (ht : LeansLeft t n) (hlow : n ≤ l.height + 1)
    (hhigh : l.height ≤ n) :
    (avlBalance (node l k v t h)).HeightBalanced ∧
      (avlBalance (node l k v t h)).height = n + 2 := by
  obtain ⟨a, k₁, v₁, b, k₂, v₂, c, rfl, ha, hb, hc, hna, hnb, hnc⟩ := ht
  rw [avlBalance_double_left (by omega) (by omega)]
  simp only [balanced_node_iff, height_node, hl, ha, hb, hc, true_and]
  omega

/-- The whole spine, by induction from its top: the grafted tree is balanced,
at most one level higher than what it is made of, and two levels higher than
the left subtree only when it leans to the left. -/
theorem avlMovr_spec {l r : AvlTree κ β} (hne : l ≠ nil) (hl : l.HeightBalanced)
    (hr : r.HeightBalanced) (hfit : r.height ≤ l.rightmostLeftHeight + 2) :
    (avlMovr l r).HeightBalanced ∧
      l.height ≤ (avlMovr l r).height ∧ r.height ≤ (avlMovr l r).height ∧
      (avlMovr l r).height ≤ max l.height r.height + 1 ∧
      (avlMovr l r).height ≤ l.height + 2 ∧
      ((avlMovr l r).height = l.height + 2 → LeansLeft (avlMovr l r) l.height) := by
  induction l with
  | nil => exact absurd rfl hne
  | node ll k v lr h _ ih =>
      obtain ⟨hll, hlr, hh, hd₁, hd₂⟩ := balanced_node_iff.mp hl
      cases lr with
      | nil =>
          simp only [rightmostLeftHeight, height_nil] at hfit hh hd₁
          simp only [avlMovr, height_node]
          obtain ⟨hbal, hlow, hhigh, hkeep⟩ :=
            avlBalance_spec (k := k) (v := v) (h := h) hll hr (by omega) hfit
          refine ⟨hbal, ?_, by omega, by omega, by omega, fun htop => ?_⟩
          · by_cases hr₁ : r.height ≤ ll.height + 1
            · have := hkeep (by omega) hr₁
              omega
            · omega
          · have := avlBalance_graft hll hr (k := k) (v := v) (h := h) (by omega) hfit
              (by omega)
            rwa [show h = ll.height + 1 by omega] at this ⊢
      | node a k' v' b h' =>
          have hspec := ih (by simp) hlr (by simpa [rightmostLeftHeight] using hfit)
          rw [avlMovr]
          generalize avlMovr (node a k' v' b h') r = t at hspec ⊢
          obtain ⟨hbal, hlow, hrt, hmax, hhigh, hlean⟩ := hspec
          simp only [height_node] at *
          by_cases htop : t.height = h' + 2
          · by_cases hll₁ : ll.height ≤ h'
            · -- the double rotation, from an imbalance of two or three
              obtain ⟨hres, hres'⟩ := avlBalance_above_leansLeft (k := k) (v := v) (h := h)
                hll (hlean htop) (by omega) hll₁
              exact ⟨hres, by omega, by omega, by omega, by omega, by omega⟩
            · obtain ⟨hres, hlow', hhigh', hkeep⟩ :=
                avlBalance_spec (k := k) (v := v) (h := h) hll hbal (by omega) (by omega)
              have := hkeep (by omega) (by omega)
              exact ⟨hres, by omega, by omega, by omega, by omega, by omega⟩
          · obtain ⟨hres, hlow', hhigh', hkeep⟩ :=
              avlBalance_spec (k := k) (v := v) (h := h) hll hbal (by omega) (by omega)
            by_cases hd : t.height ≤ ll.height + 1
            · have := hkeep (by omega) hd
              exact ⟨hres, by omega, by omega, by omega, by omega, by omega⟩
            · exact ⟨hres, by omega, by omega, by omega, by omega, by omega⟩

/-- The removal of `key` grafts without an imbalance above two: at the node
that goes away, or nowhere when the key is absent. -/
def RemoveFits (cmp : κ → κ → Ordering) (key : κ) : AvlTree κ β → Prop
  | nil => True
  | node l k _ r _ =>
      match cmp key k with
      | .lt => RemoveFits cmp key l
      | .gt => RemoveFits cmp key r
      | .eq => GraftFits l r

theorem avlRemoveRec_not_found (cmp : κ → κ → Ordering) (key : κ) (t : AvlTree κ β)
    (h : (avlRemoveRec cmp key t).2 = false) : (avlRemoveRec cmp key t).1 = t := by
  induction t with
  | nil => rfl
  | node l k v r hn ihl ihr =>
      rw [avlRemoveRec] at h ⊢
      cases hc : cmp key k with
      | lt =>
          simp only [hc] at h ⊢
          simp [h, ihl h]
      | gt =>
          simp only [hc] at h ⊢
          simp [h, ihr h]
      | eq => simp [hc] at h

theorem avlRemoveRec_balanced (cmp : κ → κ → Ordering) (key : κ) {t : AvlTree κ β}
    (ht : t.HeightBalanced) (hfit : RemoveFits cmp key t) :
    (avlRemoveRec cmp key t).1.HeightBalanced ∧
      (avlRemoveRec cmp key t).1.height ≤ t.height ∧
      t.height ≤ (avlRemoveRec cmp key t).1.height + 1 := by
  induction t with
  | nil => simp [avlRemoveRec]
  | node l k v r h ihl ihr =>
      obtain ⟨hl, hr, hh, hd₁, hd₂⟩ := balanced_node_iff.mp ht
      rw [avlRemoveRec]
      rw [RemoveFits] at hfit
      cases hc : cmp key k with
      | lt =>
          simp only [hc] at hfit ⊢
          obtain ⟨hbal, hle, hge⟩ := ihl hl hfit
          cases hfound : (avlRemoveRec cmp key l).2 with
          | false =>
              simp only [Bool.false_eq_true, if_false]
              rw [avlRemoveRec_not_found cmp key l hfound]
              exact ⟨ht, le_rfl, Nat.le_succ _⟩
          | true =>
              simp only [if_true, height_node]
              obtain ⟨hres, hlow, hhigh, hkeep⟩ :=
                avlBalance_spec (k := k) (v := v) (h := h) hbal hr (by omega) (by omega)
              by_cases hd : r.height ≤ (avlRemoveRec cmp key l).1.height + 1
              · have := hkeep (by omega) hd
                exact ⟨hres, by omega, by omega⟩
              · exact ⟨hres, by omega, by omega⟩
      | gt =>
          simp only [hc] at hfit ⊢
          obtain ⟨hbal, hle, hge⟩ := ihr hr hfit
          cases hfound : (avlRemoveRec cmp key r).2 with
          | false =>
              simp only [Bool.false_eq_true, if_false]
              rw [avlRemoveRec_not_found cmp key r hfound]
              exact ⟨ht, le_rfl, Nat.le_succ _⟩
          | true =>
              simp only [if_true, height_node]
              obtain ⟨hres, hlow, hhigh, hkeep⟩ :=
                avlBalance_spec (k := k) (v := v) (h := h) hl hbal (by omega) (by omega)
              by_cases hd : l.height ≤ (avlRemoveRec cmp key r).1.height + 1
              · have := hkeep hd (by omega)
                exact ⟨hres, by omega, by omega⟩
              · exact ⟨hres, by omega, by omega⟩
      | eq =>
          simp only [hc, height_node] at hfit ⊢
          rcases eq_or_ne l nil with rfl | hne
          · simp only [height_nil] at hh hd₂
            exact ⟨hr, by simp only [avlMovr]; omega, by simp only [avlMovr]; omega⟩
          · obtain ⟨hres, hlow, hrt, hmax, -, -⟩ :=
              avlMovr_spec hne hl hr (hfit.resolve_left hne)
            exact ⟨hres, by omega, by omega⟩

/-! ### Runs of insertions and removals -/

inductive AvlOp (κ β : Type) where
  | insert (key : κ) (val : β)
  | remove (key : κ)

/-- One call; a refused insertion leaves the tree as it is. -/
def AvlOp.apply (cmp : κ → κ → Ordering) (t : AvlTree κ β) : AvlOp κ β → AvlTree κ β
  | .insert key val => (avlInsert cmp key val t).getD t
  | .remove key => avlRemove cmp key t

def AvlOp.Fits (cmp : κ → κ → Ordering) (t : AvlTree κ β) : AvlOp κ β → Prop
  | .insert _ _ => True
  | .remove key => RemoveFits cmp key t

theorem AvlOp.apply_balanced (cmp : κ → κ → Ordering) {t : AvlTree κ β} (op : AvlOp κ β)
    (ht : t.HeightBalanced) (hfit : op.Fits cmp t) : (op.apply cmp t).HeightBalanced := by
  cases op with
  | insert key val =>
      rw [AvlOp.apply, avlInsert]
      cases avlGet cmp key t with
      | some e => exact ht
      | none => exact (avlInsertRec_balanced cmp key val ht).1
  | remove key => exact (avlRemoveRec_balanced cmp key ht hfit).1

/-- Every tree that insertions and removals build is balanced, as long as no
removal grafts a subtree more than two levels too high. -/
theorem avl_balanced_of_removes_fit (cmp : κ → κ → Ordering) {t : AvlTree κ β}
    (run : Reach (fun t op => some (AvlOp.apply cmp t op)) (AvlOp.Fits cmp) nil t) :
    t.HeightBalanced :=
  run.invariant balanced_nil fun t op t' ht hfit hstep => by
    obtain rfl := Option.some.inj hstep
    exact op.apply_balanced cmp ht hfit

/-- Removing the root of a three-node tree grafts one leaf under the other. -/
theorem avl_balanced_remove_two :
    (avlRemove compare 2 (node (node nil 1 () nil 1) 2 () (node nil 3 () nil 1) 2)
      : AvlTree ℕ Unit).HeightBalanced := by
  have built : Reach (fun t op => some (AvlOp.apply compare t op)) (AvlOp.Fits compare) nil
      (node (node nil 1 () nil 1) 2 () (node nil 3 () nil 1) 2) :=
    .step (a := .insert 3 ()) (.step (a := .insert 1 ())
      (.step (a := .insert 2 ()) .start trivial rfl) trivial rfl) trivial rfl
  have fits : GraftFits (node nil 1 () nil 1) (node nil 3 () nil 1) := .inr (by decide)
  exact avl_balanced_of_removes_fit compare (.step (a := .remove 2) built fits rfl)

/-- Eight insertions and one removal. The removed root has a left subtree of
height two and a right subtree of height three with two equally high children;
the predecessor ends up two levels lighter on its left. -/
theorem avl_remove_root_unbalances :
    ¬(([.insert 3 (), .insert 1 (), .insert 6 (), .insert 2 (), .insert 4 (), .insert 7 (),
      .insert 5 (), .insert 8 (), .remove 3] : List (AvlOp ℕ Unit)).foldl
      (AvlOp.apply compare) nil).HeightBalanced := by
  decide

end WebcomSdk.Collection

import Mathlib.Data.Nat.Fib.Basic
import WebcomSdk.Collection.AvlBalance
import WebcomSdk.Collection.AvlSet

/-!
Which trees insertions build. Taking a deepest leaf away from a balanced search
tree leaves a balanced one, and inserting it again rotates nothing; so every
balanced search tree is built by insertions alone, also the sparsest one of its
height, whose sizes are Fibonacci numbers.
-/

namespace WebcomSdk.Collection

open WebcomSdk.Lib AvlTree Std

variable {κ β : Type} {cmp : κ → κ → Ordering}

/-- The trees that calls on an empty one lead to, when all of them meet `ok`. -/
def Avl.Reached (cmp : κ → κ → Ordering) (ok : Avl κ β → AvlCall κ β → Prop) : Avl κ β → Prop :=
  Reach (fun avl c => some (avl.call cmp c).1) ok avlNew

def AvlCall.IsInsert : AvlCall κ β → Prop
  | .insert _ _ => True
  | _ => False

/-- A removal grafts without an imbalance above two. -/
def AvlCall.Fits (cmp : κ → κ → Ordering) (avl : Avl κ β) : AvlCall κ β → Prop
  | .remove key => RemoveFits cmp key avl.root
  | _ => True

theorem Avl.Reached.balanced {avl : Avl κ β}
    (run : avl.Reached cmp fun avl c => c.Fits cmp avl) : avl.root.HeightBalanced := by
  apply Reach.invariant run balanced_nil
  intro avl c avl' hbal hfit hstep
  obtain rfl := Option.some.inj hstep
  cases c with
  | insert key val =>
      rw [Avl.call, avlInsert]
      cases avlGet cmp key avl.root with
      | some e => exact hbal
      | none => exact (avlInsertRec_balanced cmp key val hbal).1
  | remove key => exact (avlRemoveRec_balanced cmp key hbal hfit).1
  | get key => exact hbal
  | count => exact hbal
  | removeAll => exact balanced_nil

theorem Avl.Reached.good [TransCmp cmp] {ok : Avl κ β → AvlCall κ β → Prop} {avl : Avl κ β}
    (run : avl.Reached cmp ok) : avl.Good cmp := by
  apply Reach.invariant run good_avlNew
  intro avl c avl' hgood _ hstep
  obtain rfl := Option.some.inj hstep
  exact (call_spec hgood c).2

/-! ### Heights and sizes -/

theorem AvlTree.HeightBalanced.eq_nil {t : AvlTree κ β} (ht : t.HeightBalanced)
    (h : t.height = 0) : t = nil := by
  cases t with
  | nil => rfl
  | node l k v r h' =>
      obtain ⟨-, -, hh, -, -⟩ := balanced_node_iff.mp ht
      rw [height_node] at h
      omega

/-- A balanced tree has at least as many entries as the sparsest one. -/
theorem AvlTree.HeightBalanced.fib_le {t : AvlTree κ β} (ht : t.HeightBalanced) :
    Nat.fib (t.height + 2) ≤ t.size + 1 := by
  induction t with
  | nil => exact Nat.le_refl 1
  | node l k v r h ihl ihr =>
      obtain ⟨hl, hr, hh, hlr, hrl⟩ := balanced_node_iff.mp ht
      have hfl := ihl hl
      have hfr := ihr hr
      rw [height_node, hh, AvlTree.size]
      -- the lower child is one level below the higher one at most
      rcases Nat.le_total l.height r.height with hle | hle
      · have hmono : Nat.fib (r.height + 1) ≤ Nat.fib (l.height + 2) := Nat.fib_mono (by omega)
        have hadd : Nat.fib (r.height + 1 + 2) = Nat.fib (r.height + 1) + Nat.fib (r.height + 2) :=
          Nat.fib_add_two
        rw [Nat.max_eq_right hle, hadd]
        omega
      · have hmono : Nat.fib (l.height + 1) ≤ Nat.fib (r.height + 2) := Nat.fib_mono (by omega)
        have hadd : Nat.fib (l.height + 1 + 2) = Nat.fib (l.height + 1) + Nat.fib (l.height + 2) :=
          Nat.fib_add_two
        rw [Nat.max_eq_left hle, hadd]
        omega

/-! ### Every balanced tree is built by insertions -/

section Growth

variable [TransCmp cmp]

/-- `t` is what the insertion of a new key makes of the balanced tree `s`. -/
structure Grows (cmp : κ → κ → Ordering) (s t : AvlTree κ β) (key : κ) (val : β) : Prop where
  balanced : s.HeightBalanced
  ordered : s.Ordered cmp
  absent : avlGet cmp key s = none
  inserted : avlInsertRec cmp key val s = t
  height_le : s.height ≤ t.height
  le_height : t.height ≤ s.height + 1

omit [TransCmp cmp] in
theorem Grows.mem_iff {s t : AvlTree κ β} {key : κ} {val : β} (h : Grows cmp s t key val)
    {e : κ × β} : e ∈ t.toList ↔ e = (key, val) ∨ e ∈ s.toList := by
  rw [← h.inserted]
  exact mem_avlInsertRec key val s

theorem Grows.left {s l r : AvlTree κ β} {key k : κ} {val v : β} {h : ℕ}
    (ht : (node l k v r h).HeightBalanced) (hord : (node l k v r h).Ordered cmp)
    (hle : r.height ≤ l.height) (hg : Grows cmp s l key val) :
    Grows cmp (node s k v r (max s.height r.height + 1)) (node l k v r h) key val := by
  obtain ⟨hl, hr, hh, hlr, hrl⟩ := balanced_node_iff.mp ht
  obtain ⟨hol, hor, hlk, hkr⟩ := ordered_node_iff.mp hord
  have hlow := hg.height_le
  have hhigh := hg.le_height
  have hkey : cmp key k = .lt := hlk _ (hg.mem_iff.mpr (.inl rfl))
  refine ⟨?_, ?_, ?_, ?_, ?_, ?_⟩
  · exact balanced_node_iff.mpr ⟨hg.balanced, hr, rfl, by omega, by omega⟩
  · exact ordered_node_iff.mpr
      ⟨hg.ordered, hor, fun e he => hlk e (hg.mem_iff.mpr (.inr he)), hkr⟩
  · rw [avlGet, hkey]
    exact hg.absent
  · rw [avlInsertRec, if_pos hkey, hg.inserted, avlBalance_level hlr hrl, hh]
  · rw [height_node, height_node]
    omega
  · rw [height_node, height_node]
    omega

theorem Grows.right {s l r : AvlTree κ β} {key k : κ} {val v : β} {h : ℕ}
    (ht : (node l k v r h).HeightBalanced) (hord : (node l k v r h).Ordered cmp)
    (hle : l.height ≤ r.height) (hg : Grows cmp s r key val) :
    Grows cmp (node l k v s (max l.height s.height + 1)) (node l k v r h) key val := by
  obtain ⟨hl, hr, hh, hlr, hrl⟩ := balanced_node_iff.mp ht
  obtain ⟨hol, hor, hlk, hkr⟩ := ordered_node_iff.mp hord
  have hlow := hg.height_le
  have hhigh := hg.le_height
  have hkey : cmp key k = .gt := OrientedCmp.gt_of_lt (hkr _ (hg.mem_iff.mpr (.inl rfl)))
  refine ⟨?_, ?_, ?_, ?_, ?_, ?_⟩
  · exact balanced_node_iff.mpr ⟨hl, hg.balanced, rfl, by omega, by omega⟩
  · exact ordered_node_iff.mpr
      ⟨hol, hg.ordered, hlk, fun e he => hkr e (hg.mem_iff.mpr (.inr he))⟩
  · rw [avlGet, hkey]
    exact hg.absent
  · rw [avlInsertRec, if_neg (by rw [hkey]; decide), hg.inserted, avlBalance_level hlr hrl, hh]
  · rw [height_node, height_node]
    omega
  · rw [height_node, height_node]
    omega

/-- A balanced tree without one of its deepest leaves. -/
theorem exists_grows {t : AvlTree κ β} (ht : t.HeightBalanced) (hord : t.Ordered cmp)
    (hne : t ≠ nil) : ∃ s key val, Grows cmp s t key val := by
  induction t with
  | nil => exact absurd rfl hne
  | node l k v r h ihl ihr =>
      obtain ⟨hl, hr, hh, -, -⟩ := balanced_node_iff.mp ht
      obtain ⟨hol, hor, -, -⟩ := ordered_node_iff.mp hord
      rcases Nat.lt_or_ge l.height r.height with hlt | hge
      · have hr' : r ≠ nil := by
          rintro rfl
          cases hlt
        obtain ⟨s, key, val, hg⟩ := ihr hr hor hr'
        exact ⟨_, key, val, hg.right ht hord hlt.le⟩
      · by_cases hnil : l = nil
        · -- both sides are empty
          subst hnil
          obtain rfl : r = nil := hr.eq_nil (Nat.le_zero.mp hge)
          obtain rfl : h = 1 := hh
          exact ⟨nil, k, v, balanced_nil, ordered_nil, rfl, rfl, Nat.zero_le 1, Nat.le_refl 1⟩
        · obtain ⟨s, key, val, hg⟩ := ihl hl hol hnil
          exact ⟨_, key, val, hg.left ht hord hge⟩

/-- **Insertions build every balanced search tree.** -/
theorem reached_of_balanced {t : AvlTree κ β} (ht : t.HeightBalanced) (hord : t.Ordered cmp) :
    (⟨t, t.toList.length⟩ : Avl κ β).Reached cmp fun _ c => c.IsInsert := by
  generalize hn : t.toList.length = n
  induction n generalizing t with
  | zero =>
      cases t with
      | nil => exact .start
      | node l k v r h => simp at hn
  | succ n ih =>
      have hne : t ≠ nil := by
        rintro rfl
        cases hn
      obtain ⟨s, key, val, hg⟩ := exists_grows ht hord hne
      have hlen : s.toList.length = n := by
        have hlen : (avlInsertRec cmp key val s).toList.length = s.toList.length + 1 :=
          length_avlInsertRec key val s
        rw [hg.inserted, hn] at hlen
        exact (Nat.succ.inj hlen).symm
      refine .step (a := .insert key val) (ih hg.balanced hg.ordered hlen) trivial ?_
      rw [Avl.call, avlInsert, hg.absent, ← hg.inserted]

end Growth

/-! ### The sparsest trees -/

/-- The sparsest tree of a height, leaning to the left, with the keys from `n` on. -/
def sparsest : ℕ → ℕ → AvlTree ℕ Unit
  | 0, _ => nil
  | 1, n => node nil n () nil 1
  | h + 2, n =>
      node (sparsest (h + 1) n) (n + (Nat.fib (h + 3) - 1)) () (sparsest h (n + Nat.fib (h + 3)))
        (h + 2)

theorem keys_sparsest (h n : ℕ) :
    (sparsest h n).toList.map Prod.fst = List.range' n (Nat.fib (h + 2) - 1) := by
  induction h using Nat.twoStepInduction generalizing n with
  | zero => rfl
  | one => rfl
  | more h ih ih' =>
      have hpos : 0 < Nat.fib (h + 3) := Nat.fib_pos.mpr (by omega)
      have hpos' : 0 < Nat.fib (h + 2) := Nat.fib_pos.mpr (by omega)
      have hadd : Nat.fib (h + 2 + 2) = Nat.fib (h + 2) + Nat.fib (h + 3) := Nat.fib_add_two
      have hcount : Nat.fib (h + 2 + 2) - 1 =
          (Nat.fib (h + 3) - 1) + (Nat.fib (h + 2) - 1 + 1) := by omega
      have hnext : n + (Nat.fib (h + 3) - 1) + 1 = n + Nat.fib (h + 3) := by omega
      rw [sparsest, toList_node, List.map_append, List.map_cons, ih, ih', hcount,
        ← List.range'_append_1, List.range'_succ, hnext]

theorem ordered_sparsest (h n : ℕ) : (sparsest h n).Ordered compare := by
  have hsorted : (List.range' n (Nat.fib (h + 2) - 1)).Pairwise fun a b => compare a b = .lt :=
    List.Pairwise.imp Nat.compare_eq_lt.mpr List.pairwise_lt_range'
  rw [← keys_sparsest] at hsorted
  exact List.pairwise_map.mp hsorted

theorem balanced_sparsest (h n : ℕ) :
    (sparsest h n).HeightBalanced ∧ (sparsest h n).height = h := by
  induction h using Nat.twoStepInduction generalizing n with
  | zero => exact ⟨balanced_nil, rfl⟩
  | one => exact ⟨balanced_node_iff.mpr ⟨balanced_nil, balanced_nil, rfl, by simp, by simp⟩, rfl⟩
  | more h ih ih' =>
      obtain ⟨hl, hlh⟩ := ih' n
      obtain ⟨hr, hrh⟩ := ih (n + Nat.fib (h + 3))
      refine ⟨balanced_node_iff.mpr ⟨hl, hr, ?_, ?_, ?_⟩, rfl⟩ <;> omega

theorem length_sparsest (h n : ℕ) : (sparsest h n).toList.length = Nat.fib (h + 2) - 1 := by
  have hkeys := congrArg List.length (keys_sparsest h n)
  rwa [List.length_map, List.length_range'] at hkeys

end WebcomSdk.Collection

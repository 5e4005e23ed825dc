import WebcomSdk.Collection.AvlGrowth
import WebcomSdk.Collection.AvlPeek

/-!
The stack of the iterator, an array of a fixed size inside `struct avl_it`. The
code pushes a node wherever a path goes left and pops it again before the path
goes right from it, so the stack is as deep as the left turns of one path.
-/

namespace WebcomSdk.Collection

open AvlTree Std

variable {κ β : Type} {cmp : κ → κ → Ordering}

/-- The size of `avl_it._s`. -/
def avlItStackSize : ℕ := 32

/-- The number of left turns on the path that has most of them, and one for the
node where it ends. -/
def AvlTree.leftDepth : AvlTree κ β → ℕ
  | nil => 0
  | node l _ _ r _ => max (l.leftDepth + 1) r.leftDepth

namespace AvlIt

/-- However often `avl_it_next` is called, the nodes on the stack are not more than
it has room for. Within one call the stack is never longer than before or after it. -/
def StackFits (cmp : κ → κ → Ordering) (t : AvlTree κ β) (it : AvlIt κ) : Prop :=
  ∀ n, (nexts cmp t n it).sp.length ≤ avlItStackSize

/-- Every iterator of the tree, whichever way it is started. -/
def NeverOverflows (cmp : κ → κ → Ordering) (t : AvlTree κ β) : Prop :=
  (start t).StackFits cmp t ∧ ∀ key, (startAt cmp t key).StackFits cmp t

/-- A stack of at most `n` nodes, that is no longer after each of them has been
popped and the path to the left from its right child pushed. -/
def Within (cmp : κ → κ → Ordering) (t : AvlTree κ β) (n : ℕ) : List κ → Prop
  | [] => True
  | top :: sp =>
      sp.length + 1 ≤ n ∧ sp.length + (avlNode cmp top t).right.leftDepth ≤ n ∧ Within cmp t n sp

variable {t s : AvlTree κ β} {n : ℕ} {sp : List κ}

theorem Within.length_le (h : Within cmp t n sp) : sp.length ≤ n := by
  cases sp with
  | nil => exact Nat.zero_le n
  | cons top sp => exact h.1

section Ordered

variable [TransCmp cmp]

theorem Within.push (ht : t.Ordered cmp) {l r : AvlTree κ β} {k : κ} {v : β} {h : ℕ}
    (hs : Subtree (node l k v r h) t) (hsp : Within cmp t n sp)
    (hn : sp.length + (node l k v r h).leftDepth ≤ n) :
    Within cmp t n (k :: sp) ∧ (k :: sp).length + l.leftDepth ≤ n := by
  rw [leftDepth] at hn
  refine ⟨⟨by omega, ?_, hsp⟩, ?_⟩
  · rw [avlNode_of_subtree ht hs, AvlTree.right]
    omega
  · rw [List.length_cons]
    omega

theorem within_pushLeft (ht : t.Ordered cmp) (hs : Subtree s t) (hsp : Within cmp t n sp)
    (hn : sp.length + s.leftDepth ≤ n) : Within cmp t n (pushLeft s sp) := by
  induction s generalizing sp with
  | nil => exact hsp
  | node l k v r h ihl _ =>
      obtain ⟨hpush, hleft⟩ := hsp.push ht hs hn
      exact ihl hs.trans_left hpush hleft

theorem within_startAt (ht : t.Ordered cmp) (key : κ) (hs : Subtree s t)
    (hsp : Within cmp t n sp) (hn : sp.length + s.leftDepth ≤ n) :
    Within cmp t n (avlItStartAt cmp key s sp) := by
  induction s generalizing sp with
  | nil => exact hsp
  | node l k v r h ihl ihr =>
      obtain ⟨hpush, hleft⟩ := hsp.push ht hs hn
      rw [avlItStartAt]
      cases cmp key k with
      | lt => exact ihl hs.trans_left hpush hleft
      | gt =>
          rw [leftDepth] at hn
          exact ihr hs.trans_right hsp (by omega)
      | eq => exact hpush

theorem within_next (ht : t.Ordered cmp) {it : AvlIt κ} (h : Within cmp t n it.sp) :
    Within cmp t n (next cmp t it).2.sp := by
  cases hsp : it.sp with
  | nil =>
      have hnext : next cmp t it = (none, it) := by rw [next, hsp]
      rw [hnext]
      exact h
  | cons top sp =>
      rw [hsp] at h
      obtain ⟨-, hright, hrest⟩ := h
      have hsub : Subtree (avlNode cmp top t).right t := by
        have hnode : Subtree (avlNode cmp top t) t := subtree_avlNode top t
        cases hn : avlNode cmp top t with
        | nil => exact .nil
        | node l k v r h =>
            rw [hn] at hnode
            exact hnode.trans_right
      rw [(popped_next hsp).sp_eq]
      exact within_pushLeft ht hsub hrest hright

theorem stackFits_of_within (ht : t.Ordered cmp) {it : AvlIt κ}
    (h : Within cmp t avlItStackSize it.sp) : it.StackFits cmp t := by
  intro n
  induction n generalizing it with
  | zero => exact h.length_le
  | succ n ih => exact ih (within_next ht h)

/-- Some key is found at the end of the path with most left turns. -/
theorem exists_startAt (hs : s.Ordered cmp) (hne : s ≠ nil) (sp : List κ) :
    ∃ e ∈ s.toList, (avlItStartAt cmp e.1 s sp).length = sp.length + s.leftDepth := by
  induction s generalizing sp with
  | nil => exact absurd rfl hne
  | node l k v r h ihl ihr =>
      obtain ⟨hl, hr, hlk, hkr⟩ := ordered_node_iff.mp hs
      rcases Nat.lt_or_ge l.leftDepth r.leftDepth with hlt | hge
      · have hr' : r ≠ nil := by
          rintro rfl
          cases hlt
        obtain ⟨e, he, hlen⟩ := ihr hr hr' sp
        refine ⟨e, by simp [he], ?_⟩
        rw [avlItStartAt, OrientedCmp.gt_of_lt (hkr e he), leftDepth]
        simp only [hlen]
        omega
      · by_cases hnil : l = nil
        · subst hnil
          have hself : cmp k k = .eq := ReflCmp.compare_self
          refine ⟨(k, v), by simp, ?_⟩
          rw [avlItStartAt, hself, leftDepth]
          simp only [List.length_cons]
          rw [leftDepth] at hge ⊢
          omega
        · obtain ⟨e, he, hlen⟩ := ihl hl hnil (k :: sp)
          refine ⟨e, by simp [he], ?_⟩
          rw [avlItStartAt, hlk e he, leftDepth]
          simp only [hlen, List.length_cons]
          omega

/-- **The stack and the tree.** The iterators of a search tree keep within the
stack exactly when no path of the tree has more left turns than that allows. -/
theorem neverOverflows_iff (ht : t.Ordered cmp) :
    NeverOverflows cmp t ↔ t.leftDepth ≤ avlItStackSize := by
  constructor
  · rintro ⟨-, hstartAt⟩
    by_cases hnil : t = nil
    · subst hnil
      exact Nat.zero_le _
    · obtain ⟨e, -, hlen⟩ := exists_startAt ht hnil []
      have hfits : (startAt cmp t e.1).sp.length ≤ avlItStackSize := hstartAt e.1 0
      have hsp : (startAt cmp t e.1).sp = avlItStartAt cmp e.1 t [] := sp_startAtLoop e.1 t init
      rw [hsp, hlen, List.length_nil, Nat.zero_add] at hfits
      exact hfits
  · intro hdepth
    have hn : ([] : List κ).length + t.leftDepth ≤ avlItStackSize := by simpa using hdepth
    refine ⟨stackFits_of_within ht ?_, fun key => stackFits_of_within ht ?_⟩
    · exact within_pushLeft ht .refl trivial hn
    · rw [startAt, sp_startAtLoop]
      exact within_startAt ht key .refl trivial hn

end Ordered

end AvlIt

/-! ### Trees that calls have built -/

theorem AvlTree.HeightBalanced.leftDepth_le {t : AvlTree κ β} (ht : t.HeightBalanced) :
    t.leftDepth ≤ t.height := by
  induction t with
  | nil => exact Nat.le_refl 0
  | node l k v r h ihl ihr =>
      obtain ⟨hl, hr, hh, -, -⟩ := balanced_node_iff.mp ht
      have hl' := ihl hl
      have hr' := ihr hr
      rw [leftDepth, height_node]
      omega

/-- A balanced tree that is higher than the stack has at least as many entries as
the sparsest one. -/
theorem AvlTree.HeightBalanced.leftDepth_le_stack {t : AvlTree κ β} (ht : t.HeightBalanced)
    (hsize : t.toList.length < 9227464) : t.leftDepth ≤ avlItStackSize := by
  by_contra hdeep
  have hheight : 33 + 2 ≤ t.height + 2 := by
    have hle := ht.leftDepth_le
    rw [avlItStackSize] at hdeep
    omega
  have hfib : Nat.fib 35 ≤ t.size + 1 := (Nat.fib_mono hheight).trans ht.fib_le
  have hval : Nat.fib 35 = 9227465 := by norm_num
  rw [length_toList] at hsize
  omega

/-- **The stack is deep enough** on the trees without 32 left turns on one path.
Among them are all those of fewer than 9227464 entries that insertions build, also
with removals in between that graft without an imbalance above two. -/
theorem avlIt_neverOverflows_iff [TransCmp cmp] {avl : Avl κ β}
    (run : avl.Reached cmp fun _ _ => True) :
    (AvlIt.NeverOverflows cmp avl.root ↔ avl.root.leftDepth ≤ avlItStackSize) ∧
      ((avl.Reached cmp fun avl c => c.Fits cmp avl) → avl.count < 9227464 →
        AvlIt.NeverOverflows cmp avl.root) := by
  have hgood := run.good
  refine ⟨AvlIt.neverOverflows_iff hgood.ordered, fun hfits hcount => ?_⟩
  rw [hgood.count] at hcount
  exact (AvlIt.neverOverflows_iff hgood.ordered).mpr (hfits.balanced.leftDepth_le_stack hcount)

/-- Two insertions and a removal. -/
theorem avlIt_neverOverflows_three_calls :
    (AvlIt.NeverOverflows compare (node nil 2 () nil 1 : AvlTree ℕ Unit) ↔
      (node nil 2 () nil 1 : AvlTree ℕ Unit).leftDepth ≤ avlItStackSize) ∧
    AvlIt.NeverOverflows compare (node nil 2 () nil 1 : AvlTree ℕ Unit) := by
  have fits : (⟨node nil 2 () nil 1, 1⟩ : Avl ℕ Unit).Reached compare
      fun avl c => c.Fits compare avl :=
    .step (a := .remove 1) (.step (a := .insert 2 ())
      (.step (a := .insert 1 ()) .start trivial rfl) trivial rfl) (.inl rfl) rfl
  have run := fits.mono fun _ _ _ => trivial
  obtain ⟨hiff, hsafe⟩ := avlIt_neverOverflows_iff run
  exact ⟨hiff, hsafe fits (by decide)⟩

theorem length_pushLeft_sparsest (h n : ℕ) (sp : List ℕ) :
    (pushLeft (sparsest h n) sp).length = sp.length + h := by
  induction h using Nat.twoStepInduction generalizing n sp with
  | zero => rfl
  | one => rfl
  | more h _ ih =>
      rw [sparsest, pushLeft, ih, List.length_cons]
      omega

/-- The sparsest tree of height 33 has fewer than ten million entries. Insertions
build it, and an iterator started on it pushes 33 nodes. -/
theorem sparsest_overflows :
    (⟨sparsest 33 0, 9227464⟩ : Avl ℕ Unit).Reached compare (fun _ c => c.IsInsert) ∧
      9227464 < 2 ^ 32 ∧ (AvlIt.start (sparsest 33 0)).sp.length = 33 ∧
      ¬ AvlIt.NeverOverflows compare (sparsest 33 0) := by
  have hpush : (AvlIt.start (sparsest 33 0)).sp.length = 33 := length_pushLeft_sparsest 33 0 []
  refine ⟨?_, by norm_num, hpush, fun hfits => ?_⟩
  · have hcount : (sparsest 33 0).toList.length = 9227464 := by
      rw [length_sparsest]
      norm_num
    rw [← hcount]
    exact reached_of_balanced (balanced_sparsest 33 0).1 (ordered_sparsest 33 0)
  · have hle : (AvlIt.start (sparsest 33 0)).sp.length ≤ avlItStackSize := hfits.1 0
    rw [hpush, avlItStackSize] at hle
    omega

end WebcomSdk.Collection

import WebcomSdk.Collection.AvlPeek

/-!
`avl_it_peek_prev` right after `avl_it_start_at`, before any `avl_it_next`: the
current node is then the last one that the search for the key has visited. Where
the search went right from that node, the entry before the key is the node's own.
-/

namespace WebcomSdk.Collection

open AvlTree Std

variable {κ β : Type} {cmp : κ → κ → Ordering}

/-- The key is present, or the node of the greatest entry smaller than it, if
there is one, has a right child. -/
def AvlIt.SeesBefore (cmp : κ → κ → Ordering) (t : AvlTree κ β) (key : κ) : Prop :=
  (∃ e ∈ t.toList, cmp key e.1 = .eq) ∨
    ∀ e, entryBefore cmp t key = some e → (avlNode cmp e.1 t).right ≠ nil

variable {t : AvlTree κ β}

theorem entryBefore_lt {key : κ} {e : κ × β} (h : entryBefore cmp t key = some e) :
    cmp e.1 key = .lt := by
  obtain ⟨-, hlt⟩ := List.mem_filter.mp (List.mem_of_getLast? h)
  exact beq_iff_eq.mp hlt

variable [TransCmp cmp]

theorem entryBefore_congr {key key' : κ} (h : cmp key key' = .eq) :
    entryBefore cmp t key = entryBefore cmp t key' := by
  have hsame : ∀ e : κ × β, (cmp e.1 key == .lt) = (cmp e.1 key' == .lt) := by
    intro e
    rw [TransCmp.congr_right h]
  rw [entryBefore, entryBefore, List.filter_congr fun e _ => hsame e]

namespace AvlIt

variable {key k : κ} {v : β} {l r s : AvlTree κ β} {h : ℕ} {before after : List (κ × β)}
  {it : AvlIt κ}

/-- The search for the key goes on in `s`, whose entries stand between `before`
and `after`. -/
structure Searching (cmp : κ → κ → Ordering) (t : AvlTree κ β) (key : κ) (s : AvlTree κ β)
    (before after : List (κ × β)) (it : AvlIt κ) : Prop where
  place : s.InPlace t before
  toList : t.toList = before ++ (s.toList ++ after)
  before_lt : ∀ e ∈ before, cmp e.1 key = .lt
  after_gt : ∀ e ∈ after, cmp key e.1 = .lt
  nextRt : it.nextRt = before.getLast?.map Prod.fst
  /-- where the search last went right -/
  turned : s ≠ nil → ∀ e, before.getLast? = some e → (avlNode cmp e.1 t).right ≠ nil

omit [TransCmp cmp] in
theorem searching_init (t : AvlTree κ β) (key : κ) : Searching cmp t key t [] [] init where
  place := .refl t
  toList := by simp
  before_lt := by simp
  after_gt := by simp
  nextRt := rfl
  turned := by simp

/-- The iterator at a node, before the search leaves it. -/
def visit (it : AvlIt κ) (k : κ) : AvlIt κ := { it with c := some k, rt := it.nextRt }

theorem Searching.goLeft (hs : Searching cmp t key (node l k v r h) before after it)
    (hr : ∀ e ∈ r.toList, cmp k e.1 = .lt) (hk : cmp key k = .lt) :
    Searching cmp t key l before ((k, v) :: r.toList ++ after)
      { it.visit k with sp := k :: it.sp } where
  place := hs.place.left
  toList := by
    rw [hs.toList, toList_node, List.append_assoc]
  before_lt := hs.before_lt
  after_gt := by
    intro e he
    rcases List.mem_append.mp he with he | he
    · rcases List.mem_cons.mp he with rfl | he
      · exact hk
      · exact TransCmp.lt_trans hk (hr e he)
    · exact hs.after_gt e he
  nextRt := hs.nextRt
  turned := fun _ => hs.turned (by simp)

theorem Searching.goRight (ht : t.Ordered cmp)
    (hs : Searching cmp t key (node l k v r h) before after it)
    (hl : ∀ e ∈ l.toList, cmp e.1 k = .lt) (hk : cmp key k = .gt) :
    Searching cmp t key r (before ++ l.toList ++ [(k, v)]) after
      { it.visit k with nextRt := some k } where
  place := hs.place.right
  toList := by
    rw [hs.toList, toList_node]
    simp
  before_lt := by
    have hk' : cmp k key = .lt := OrientedCmp.lt_of_gt hk
    intro e he
    rcases List.mem_append.mp he with he | he
    · rcases List.mem_append.mp he with he | he
      · exact hs.before_lt e he
      · exact TransCmp.lt_trans (hl e he) hk'
    · obtain rfl := List.mem_singleton.mp he
      exact hk'
  after_gt := hs.after_gt
  nextRt := by simp
  turned := by
    intro hr e he
    obtain rfl : (k, v) = e := by simpa using he
    rw [avlNode_of_subtree ht hs.place.subtree]
    exact hr

/-- Where the search has ended, nothing after the key is before it. -/
theorem Searching.entryBefore_eq (hs : Searching cmp t key nil before after it) :
    entryBefore cmp t key = before.getLast? := by
  have hlist := hs.toList
  rw [toList_nil, List.nil_append] at hlist
  apply entryBefore_of_cut hlist hs.before_lt
  intro e he hlt
  have hgt := OrientedCmp.gt_of_lt (hs.after_gt e he)
  rw [hlt] at hgt
  cases hgt

/-- Where the search has ended without the key, the key is absent. -/
theorem Searching.absent (hs : Searching cmp t key nil before after it) :
    ¬ ∃ e ∈ t.toList, cmp key e.1 = .eq := by
  rintro ⟨e, he, heq⟩
  rw [hs.toList, toList_nil, List.nil_append] at he
  rcases List.mem_append.mp he with he | he
  · have hlt := hs.before_lt e he
    rw [OrientedCmp.eq_symm heq] at hlt
    cases hlt
  · have hlt := hs.after_gt e he
    rw [heq] at hlt
    cases hlt

/-- The search ends at the node of the key. -/
theorem Searching.found (ht : t.Ordered cmp)
    (hs : Searching cmp t key (node l k v r h) before after it) (hk : cmp key k = .eq) :
    peekPrev cmp t { it.visit k with sp := k :: it.sp } = entryBefore cmp t key ∧
      SeesBefore cmp t key := by
  refine ⟨?_, .inl ⟨(k, v), hs.place.subtree.mem (by simp), hk⟩⟩
  rw [entryBefore_congr hk]
  exact peekPrev_at ht hs.place rfl fun _ => hs.nextRt

/-- The search ends left of a node. -/
theorem Searching.endLeft (ht : t.Ordered cmp)
    (hs : Searching cmp t key (node nil k v r h) before after it)
    (hr : ∀ e ∈ r.toList, cmp k e.1 = .lt) (hk : cmp key k = .lt) :
    peekPrev cmp t { it.visit k with sp := k :: it.sp } = entryBefore cmp t key ∧
      SeesBefore cmp t key := by
  have hleft := hs.goLeft hr hk
  have hlist := hleft.toList
  rw [toList_nil, List.nil_append] at hlist
  refine ⟨?_, .inr ?_⟩
  · rw [hleft.entryBefore_eq, ← Collection.entryBefore_eq ht hlist]
    exact peekPrev_at ht hs.place rfl fun _ => hs.nextRt
  · rw [hleft.entryBefore_eq]
    exact hs.turned (by simp)

/-- The search ends right of a node, which is the one before the key. -/
theorem Searching.endRight (ht : t.Ordered cmp)
    (hs : Searching cmp t key (node l k v nil h) before after it)
    (hl : ∀ e ∈ l.toList, cmp e.1 k = .lt) (hk : cmp key k = .gt) :
    peekPrev cmp t { it.visit k with nextRt := some k } ≠ entryBefore cmp t key ∧
      ¬ SeesBefore cmp t key := by
  have hright := hs.goRight ht hl hk
  have hkey : entryBefore cmp t key = some (k, v) := by
    rw [hright.entryBefore_eq]
    simp
  constructor
  · have hat : peekPrev cmp t { it.visit k with nextRt := some k } = entryBefore cmp t k :=
      peekPrev_at ht hs.place rfl fun _ => hs.nextRt
    rw [hat, hkey]
    intro hself
    have hrefl : cmp k k = .eq := ReflCmp.compare_self
    rw [entryBefore_lt hself] at hrefl
    cases hrefl
  · rintro (hpresent | hchild)
    · exact hright.absent hpresent
    · apply hchild (k, v) hkey
      rw [avlNode_of_subtree ht hs.place.subtree]
      rfl

theorem Searching.peekPrev_iff (ht : t.Ordered cmp) (hsorted : s.Ordered cmp) (hne : s ≠ nil)
    (hs : Searching cmp t key s before after it) :
    peekPrev cmp t (startAtLoop cmp key s it) = entryBefore cmp t key ↔ SeesBefore cmp t key := by
  induction s generalizing before after it with
  | nil => exact absurd rfl hne
  | node l k v r h ihl ihr =>
      obtain ⟨hl, hr, hlk, hkr⟩ := ordered_node_iff.mp hsorted
      rw [startAtLoop]
      cases hk : cmp key k with
      | lt =>
          by_cases hnil : l = nil
          · subst hnil
            obtain ⟨hpeek, hsees⟩ := hs.endLeft ht hkr hk
            exact iff_of_true hpeek hsees
          · exact ihl hl hnil (hs.goLeft hkr hk)
      | gt =>
          by_cases hnil : r = nil
          · subst hnil
            obtain ⟨hpeek, hsees⟩ := hs.endRight ht hlk hk
            exact iff_of_false hpeek hsees
          · exact ihr hr hnil (hs.goRight ht hlk hk)
      | eq =>
          obtain ⟨hpeek, hsees⟩ := hs.found ht hk
          exact iff_of_true hpeek hsees

end AvlIt

/-- **What is seen before the first entry.** On every search tree that is not
empty, `avl_it_peek_prev` after `avl_it_start_at` returns the greatest entry
smaller than the key exactly when the key is present, nothing is smaller, or the
node of that entry has a right child. -/
theorem peekPrev_startAt_iff (ht : t.Ordered cmp) (hne : t ≠ nil) (key : κ) :
    (AvlIt.startAt cmp t key).peekPrev cmp t = entryBefore cmp t key ↔
      AvlIt.SeesBefore cmp t key :=
  (AvlIt.searching_init t key).peekPrev_iff ht ht hne

/-- Between two entries of three, from the middle one on. -/
theorem peekPrev_startAt_three :
    (AvlIt.startAt compare (node (node nil 1 () nil 1) 3 () (node nil 5 () nil 1) 2) 4).peekPrev
        compare (node (node nil 1 () nil 1) 3 () (node nil 5 () nil 1) 2) =
      entryBefore compare (node (node nil 1 () nil 1) 3 () (node nil 5 () nil 1) 2) 4 ↔
    AvlIt.SeesBefore compare (node (node nil 1 () nil 1) 3 () (node nil 5 () nil 1) 2) 4 :=
  peekPrev_startAt_iff (by rw [Ordered]; decide) (by simp) 4

/-- In a tree of one entry, the entry before a greater key is not found. -/
theorem peekPrev_startAt_single :
    ¬ ∀ (t : AvlTree ℕ Unit) (key : ℕ), t.Ordered compare → t ≠ nil →
      (AvlIt.startAt compare t key).peekPrev compare t = entryBefore compare t key := by
  intro h
  have hsingle := h (node nil 1 () nil 1) 2 (by rw [Ordered]; decide) (by simp)
  exact absurd hsingle (by decide)

end WebcomSdk.Collection

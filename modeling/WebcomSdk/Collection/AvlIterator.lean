import WebcomSdk.Collection.AvlMap

/-!
The iterator of `lib/collection/avl.c`: a stack of node pointers, read back in
the tree as it is at each `avl_it_next`. A node keeps its address for as long as
it lives, so a pointer is the key of its node. What an iterator has left to
return is the in-order rest of the tree from the top of its stack on.
-/

namespace WebcomSdk.Collection

open AvlTree Std

variable {κ β : Type}

namespace AvlTree

def right : AvlTree κ β → AvlTree κ β
  | nil => nil
  | node _ _ _ r _ => r

def keys (t : AvlTree κ β) : List κ := t.toList.map Prod.fst

/-- `s` hangs somewhere in `t`. -/
inductive Subtree : AvlTree κ β → AvlTree κ β → Prop
  | nil {t : AvlTree κ β} : Subtree nil t
  | refl {t : AvlTree κ β} : Subtree t t
  | left {s l r : AvlTree κ β} {k : κ} {v : β} {h : ℕ} (hs : Subtree s l) :
      Subtree s (node l k v r h)
  | right {s l r : AvlTree κ β} {k : κ} {v : β} {h : ℕ} (hs : Subtree s r) :
      Subtree s (node l k v r h)

end AvlTree

/-- The loop that pushes `cur`, its left child, and so on. -/
def pushLeft : AvlTree κ β → List κ → List κ
  | nil, stack => stack
  | node l k _ _ _, stack => pushLeft l (k :: stack)

/-- What the pointer to the node of `key` points to. -/
def avlNode (cmp : κ → κ → Ordering) (key : κ) : AvlTree κ β → AvlTree κ β
  | nil => nil
  | node l k v r h =>
      match cmp key k with
      | .lt => avlNode cmp key l
      | .gt => avlNode cmp key r
      | .eq => node l k v r h

def avlItStartAt (cmp : κ → κ → Ordering) (key : κ) : AvlTree κ β → List κ → List κ
  | nil, stack => stack
  | node l k _ r _, stack =>
      match cmp key k with
      | .lt => avlItStartAt cmp key l (k :: stack)
      | .gt => avlItStartAt cmp key r stack
      | .eq => k :: stack

def avlItNext (cmp : κ → κ → Ordering) (t : AvlTree κ β) : List κ → Option (κ × List κ)
  | [] => none
  | top :: stack => some (top, pushLeft (avlNode cmp top t).right stack)

/-- What an iterator has left to return. -/
def avlPending (cmp : κ → κ → Ordering) (t : AvlTree κ β) (stack : List κ) : List κ :=
  stack.flatMap fun top => top :: (avlNode cmp top t).right.keys

@[simp] theorem keys_nil : (nil : AvlTree κ β).keys = [] := rfl

@[simp] theorem keys_node (l : AvlTree κ β) (k : κ) (v : β) (r : AvlTree κ β) (h : ℕ) :
    (node l k v r h).keys = l.keys ++ k :: r.keys := by
  simp [keys]

variable {cmp : κ → κ → Ordering}

@[simp] theorem avlPending_nil (t : AvlTree κ β) : avlPending cmp t [] = [] := rfl

theorem avlPending_cons (t : AvlTree κ β) (top : κ) (stack : List κ) :
    avlPending cmp t (top :: stack) =
      top :: (avlNode cmp top t).right.keys ++ avlPending cmp t stack := rfl

/-! ### A tree that stays as it is -/

theorem AvlTree.Subtree.trans_left {l r t : AvlTree κ β} {k : κ} {v : β} {h : ℕ}
    (hs : Subtree (node l k v r h) t) : Subtree l t := by
  generalize hn : node l k v r h = n at hs
  induction hs with
  | nil => cases hn
  | refl =>
      subst hn
      exact .left .refl
  | left _ ih => exact .left (ih hn)
  | right _ ih => exact .right (ih hn)

theorem AvlTree.Subtree.trans_right {l r t : AvlTree κ β} {k : κ} {v : β} {h : ℕ}
    (hs : Subtree (node l k v r h) t) : Subtree r t := by
  generalize hn : node l k v r h = n at hs
  induction hs with
  | nil => cases hn
  | refl =>
      subst hn
      exact .right .refl
  | left _ ih => exact .left (ih hn)
  | right _ ih => exact .right (ih hn)

theorem AvlTree.Subtree.mem {s t : AvlTree κ β} (hs : Subtree s t) {e : κ × β}
    (he : e ∈ s.toList) : e ∈ t.toList := by
  induction hs with
  | nil => cases he
  | refl => exact he
  | left _ ih => exact List.mem_append_left _ (ih he)
  | right _ ih => exact List.mem_append_right _ (List.mem_cons_of_mem _ (ih he))

theorem subtree_avlNode (key : κ) (t : AvlTree κ β) : Subtree (avlNode cmp key t) t := by
  induction t with
  | nil => exact .nil
  | node l k v r h ihl ihr =>
      rw [avlNode]
      split
      · exact .left ihl
      · exact .right ihr
      · exact .refl

variable [TransCmp cmp]

theorem avlNode_of_subtree {t : AvlTree κ β} (ht : t.Ordered cmp) {l r : AvlTree κ β} {k : κ}
    {v : β} {h : ℕ} (hs : Subtree (node l k v r h) t) : avlNode cmp k t = node l k v r h := by
  generalize hn : node l k v r h = n at hs
  have hk : (k, v) ∈ n.toList := by simp [← hn]
  induction hs with
  | nil => cases hn
  | @refl t =>
      subst hn
      have hself : cmp k k = .eq := ReflCmp.compare_self
      rw [avlNode, hself]
  | left hs ih =>
      obtain ⟨hl, -, hlk, -⟩ := ordered_node_iff.mp ht
      rw [avlNode, hlk _ (hs.mem hk)]
      exact ih hl hn hk
  | right hs ih =>
      obtain ⟨-, hr, -, hkr⟩ := ordered_node_iff.mp ht
      rw [avlNode, OrientedCmp.gt_of_lt (hkr _ (hs.mem hk))]
      exact ih hr hn hk

theorem avlPending_pushLeft {t s : AvlTree κ β} (ht : t.Ordered cmp) (hs : Subtree s t)
    (stack : List κ) : avlPending cmp t (pushLeft s stack) = s.keys ++ avlPending cmp t stack := by
  induction s generalizing stack with
  | nil => rfl
  | node l k v r h ihl _ =>
      rw [pushLeft, ihl hs.trans_left, avlPending_cons, avlNode_of_subtree ht hs, keys_node,
        AvlTree.right]
      simp

/-- `avl_it_next` returns the first node that is left. -/
theorem avlPending_next {t : AvlTree κ β} (ht : t.Ordered cmp) (top : κ) (stack : List κ) :
    avlPending cmp t (top :: stack) =
      top :: avlPending cmp t (pushLeft (avlNode cmp top t).right stack) := by
  have hs : Subtree (avlNode cmp top t).right t := by
    have h : Subtree (avlNode cmp top t) t := subtree_avlNode top t
    cases hn : avlNode cmp top t with
    | nil => exact .nil
    | node l k v r h' =>
        rw [hn] at h
        exact h.trans_right
  rw [avlPending_cons, avlPending_pushLeft ht hs, List.cons_append]

theorem avlPending_startAt {t s : AvlTree κ β} (ht : t.Ordered cmp) (hs : Subtree s t) (key : κ)
    (stack : List κ) : avlPending cmp t (avlItStartAt cmp key s stack) =
      (avlFrom cmp key s).map Prod.fst ++ avlPending cmp t stack := by
  induction s generalizing stack with
  | nil => rfl
  | node l k v r h ihl ihr =>
      rw [avlItStartAt, avlFrom]
      cases hc : cmp key k with
      | lt =>
          rw [ihl hs.trans_left, avlPending_cons, avlNode_of_subtree ht hs]
          simp [AvlTree.right, keys]
      | gt => exact ihr hs.trans_right stack
      | eq =>
          show avlPending cmp t (k :: stack) = _
          rw [avlPending_cons, avlNode_of_subtree ht hs]
          simp [AvlTree.right, keys]

/-! ### What an iterator does not see -/

omit [TransCmp cmp]

section Map

variable {γ : Type} (g : β → γ)

theorem right_map (t : AvlTree κ β) : (t.map g).right = t.right.map g := by
  cases t <;> rfl

theorem avlNode_map (key : κ) (t : AvlTree κ β) :
    avlNode cmp key (t.map g) = (avlNode cmp key t).map g := by
  induction t with
  | nil => rfl
  | node l k v r h ihl ihr =>
      rw [AvlTree.map, avlNode, avlNode]
      cases cmp key k with
      | lt => exact ihl
      | gt => exact ihr
      | eq => rfl

theorem pushLeft_map (t : AvlTree κ β) (stack : List κ) :
    pushLeft (t.map g) stack = pushLeft t stack := by
  induction t generalizing stack with
  | nil => rfl
  | node l k v r h ihl _ => exact ihl _

theorem avlItNext_map (t : AvlTree κ β) (stack : List κ) :
    avlItNext cmp (t.map g) stack = avlItNext cmp t stack := by
  cases stack with
  | nil => rfl
  | cons top stack => rw [avlItNext, avlItNext, avlNode_map, right_map, pushLeft_map]

theorem avlItStartAt_map (key : κ) (t : AvlTree κ β) (stack : List κ) :
    avlItStartAt cmp key (t.map g) stack = avlItStartAt cmp key t stack := by
  induction t generalizing stack with
  | nil => rfl
  | node l k v r h ihl ihr =>
      rw [AvlTree.map, avlItStartAt, avlItStartAt]
      cases cmp key k with
      | lt => exact ihl _
      | gt => exact ihr _
      | eq => rfl

theorem avlPending_map (t : AvlTree κ β) (stack : List κ) :
    avlPending cmp (t.map g) stack = avlPending cmp t stack := by
  have hkeys : ∀ u : AvlTree κ β, (u.map g).keys = u.keys := by
    intro u
    rw [keys, keys, toList_map, List.map_map]
    rfl
  rw [avlPending, avlPending]
  congr 1
  funext top
  rw [avlNode_map, right_map, hkeys]

end Map

/-! ### The keys on the stack -/

theorem mem_pushLeft {s : AvlTree κ β} {stack : List κ} {e : κ} (he : e ∈ pushLeft s stack) :
    e ∈ s.keys ∨ e ∈ stack := by
  induction s generalizing stack with
  | nil => exact .inr he
  | node l k v r h ihl _ =>
      rcases ihl he with hl | hstack
      · exact .inl (by simp [hl])
      · rcases List.mem_cons.mp hstack with rfl | hstack
        · exact .inl (by simp)
        · exact .inr hstack

theorem mem_avlItStartAt (key : κ) {s : AvlTree κ β} {stack : List κ} {e : κ}
    (he : e ∈ avlItStartAt cmp key s stack) : e ∈ s.keys ∨ e ∈ stack := by
  induction s generalizing stack with
  | nil => exact .inr he
  | node l k v r h ihl ihr =>
      rw [avlItStartAt] at he
      cases hc : cmp key k with
      | lt =>
          rw [hc] at he
          rcases ihl he with hl | hstack
          · exact .inl (by simp [hl])
          · rcases List.mem_cons.mp hstack with rfl | hstack
            · exact .inl (by simp)
            · exact .inr hstack
      | gt =>
          rw [hc] at he
          exact (ihr he).imp_left fun hr => by simp [hr]
      | eq =>
          rw [hc] at he
          rcases List.mem_cons.mp he with rfl | hstack
          · exact .inl (by simp)
          · exact .inr hstack

/-! ### Loops over an iterator -/

section Loop

variable {σ τ : Type}

/-- The loop `while ((x = avl_it_next(&it)) != NULL && go(x)) visit(x)` over a
tree that is part of the state. `none` says that it makes more than `fuel`
passes. -/
def avlItLoop (cmp : κ → κ → Ordering) (tree : σ → AvlTree κ β) (go : κ → Bool)
    (visit : κ → σ → σ) : ℕ → List κ → σ → Option σ
  | 0, _, _ => none
  | fuel + 1, it, s =>
      match avlItNext cmp (tree s) it with
      | none => some s
      | some (x, it) =>
          if go x then avlItLoop cmp tree go visit fuel it (visit x s) else some s

variable {tree : σ → AvlTree κ β} {go : κ → Bool} {visit : κ → σ → σ}

/-- **The loop rule.** A loop whose visits keep the keys where they are visits
what is left of the tree, as long as it goes. -/
theorem avlItLoop_eq [TransCmp cmp] {γ : Type} (g : β → γ) {t : AvlTree κ β}
    (ht : t.Ordered cmp) (hkeep : ∀ x s, (tree (visit x s)).map g = (tree s).map g) (fuel : ℕ)
    (it : List κ) (s : σ) (hs : (tree s).map g = t.map g) :
    avlItLoop cmp tree go visit fuel it s =
      if ((avlPending cmp t it).takeWhile go).length < fuel then
        some (((avlPending cmp t it).takeWhile go).foldl (fun s x => visit x s) s)
      else none := by
  induction fuel generalizing it s with
  | zero => rfl
  | succ fuel ih =>
      cases it with
      | nil => simp [avlItLoop, avlItNext]
      | cons top stack =>
          have hnext : avlItNext cmp (tree s) (top :: stack) = avlItNext cmp t (top :: stack) := by
            rw [← avlItNext_map g, hs, avlItNext_map]
          rw [avlItLoop, hnext, avlPending_next ht, List.takeWhile_cons]
          simp only [avlItNext]
          cases hgo : go top with
          | false => simp
          | true =>
              rw [if_pos rfl, if_pos rfl, ih _ _ (by rw [hkeep, hs])]
              simp

/-- A loop that also keeps a record does what it does without the record. -/
theorem avlItLoop_proj (tree : σ → AvlTree κ β) {visit' : κ → τ → τ} (π : τ → σ)
    (hvisit : ∀ x s, π (visit' x s) = visit x (π s)) (fuel : ℕ) (it : List κ) (s : τ) :
    (avlItLoop cmp (fun s => tree (π s)) go visit' fuel it s).map π =
      avlItLoop cmp tree go visit fuel it (π s) := by
  induction fuel generalizing it s with
  | zero => rfl
  | succ fuel ih =>
      rw [avlItLoop, avlItLoop]
      cases avlItNext cmp (tree (π s)) it with
      | none => rfl
      | some next =>
          simp only
          split
          · rw [ih, hvisit]
          · rfl

end Loop

end WebcomSdk.Collection

import Mathlib.Tactic

/-!
The AVL tree of `lib/collection/avl.c`. A node carries its key, the rest of
its data and the height the C code stores in it; every rotation and every
rebalancing step recomputes heights exactly where the C code does. The
comparator is the sign of the C `avl_key_cmp_f`.
-/

namespace WebcomSdk.Collection

/-- `struct avl_node`, with `data` split into the part the comparator reads
and the rest. -/
inductive AvlTree (κ β : Type) where
  | nil
  | node (l : AvlTree κ β) (key : κ) (val : β) (r : AvlTree κ β) (height : ℕ)
  deriving Repr, DecidableEq

namespace AvlTree

variable {κ β : Type}

/-- `n ? n->height : 0`. -/
def height : AvlTree κ β → ℕ
  | nil => 0
  | node _ _ _ _ h => h

/-- In-order list of the entries, the order of `avl_walk` and of an iterator
started by `avl_it_start`. -/
def toList : AvlTree κ β → List (κ × β)
  | nil => []
  | node l k v r _ => l.toList ++ (k, v) :: r.toList

def size : AvlTree κ β → ℕ
  | nil => 0
  | node l _ _ r _ => l.size + 1 + r.size

/-- The same nodes with other data next to the keys. -/
def map {γ : Type} (g : β → γ) : AvlTree κ β → AvlTree κ γ
  | nil => nil
  | node l k v r h => node (l.map g) k (g v) (r.map g) h

@[simp] theorem height_nil : (nil : AvlTree κ β).height = 0 := rfl
@[simp] theorem height_node (l : AvlTree κ β) (k : κ) (v : β) (r : AvlTree κ β) (h : ℕ) :
    (node l k v r h).height = h := rfl
@[simp] theorem toList_nil : (nil : AvlTree κ β).toList = [] := rfl
@[simp] theorem toList_node (l : AvlTree κ β) (k : κ) (v : β) (r : AvlTree κ β) (h : ℕ) :
    (node l k v r h).toList = l.toList ++ (k, v) :: r.toList := rfl

theorem length_toList (t : AvlTree κ β) : t.toList.length = t.size := by
  induction t with
  | nil => rfl
  | node l k v r h ihl ihr =>
      simp only [toList_node, List.length_append, List.length_cons, ihl, ihr, size]
      omega

end AvlTree

open AvlTree

variable {κ β : Type}

def avlUpdateHeight : AvlTree κ β → AvlTree κ β
  | nil => nil
  | node l k v r _ => node l k v r (max l.height r.height + 1)

def avlDelta : AvlTree κ β → ℤ
  | nil => 0
  | node l _ _ r _ => (l.height : ℤ) - r.height

/-- The C code dereferences `n->r`; `avl_balance` only rotates when it is
there. -/
def avlRotl : AvlTree κ β → AvlTree κ β
  | node l k v (node rl rk rv rr rh) h =>
      avlUpdateHeight (node (avlUpdateHeight (node l k v rl h)) rk rv rr rh)
  | t => t

def avlRotr : AvlTree κ β → AvlTree κ β
  | node (node ll lk lv lr lh) k v r h =>
      avlUpdateHeight (node ll lk lv (avlUpdateHeight (node lr k v r h)) lh)
  | t => t

def avlBalance : AvlTree κ β → AvlTree κ β
  | nil => nil
  | node l k v r h =>
      let d := avlDelta (node l k v r h)
      if d < -1 then
        avlRotl (node l k v (if avlDelta r > 0 then avlRotr r else r) h)
      else if d > 1 then
        avlRotr (node (if avlDelta l < 0 then avlRotl l else l) k v r h)
      else avlUpdateHeight (node l k v r h)

/-- The flag `*ins` is set as soon as the leaf is linked, so every level of
the recursion rebalances. -/
def avlInsertRec (cmp : κ → κ → Ordering) (key : κ) (val : β) : AvlTree κ β → AvlTree κ β
  | nil => node nil key val nil 1
  | node l k v r h =>
      if cmp key k = .lt then avlBalance (node (avlInsertRec cmp key val l) k v r h)
      else avlBalance (node l k v (avlInsertRec cmp key val r) h)

def avlGet (cmp : κ → κ → Ordering) (key : κ) : AvlTree κ β → Option (κ × β)
  | nil => none
  | node l k v r _ =>
      match cmp key k with
      | .lt => avlGet cmp key l
      | .gt => avlGet cmp key r
      | .eq => some (k, v)

/-- What the pointer returned by `avl_get` points to, without its key. -/
def avlFind (cmp : κ → κ → Ordering) (key : κ) (t : AvlTree κ β) : Option β :=
  (avlGet cmp key t).map Prod.snd

/-- `none` is the `NULL` returned when an equal key is already there. -/
def avlInsert (cmp : κ → κ → Ordering) (key : κ) (val : β) (t : AvlTree κ β) :
    Option (AvlTree κ β) :=
  match avlGet cmp key t with
  | some _ => none
  | none => some (avlInsertRec cmp key val t)

def avlMovr : AvlTree κ β → AvlTree κ β → AvlTree κ β
  | nil, r => r
  | node nl k v nr h, r => avlBalance (node nl k v (avlMovr nr r) h)

/-- The flag is `parent != NULL` in the C code: the key was found below. -/
def avlRemoveRec (cmp : κ → κ → Ordering) (key : κ) : AvlTree κ β → AvlTree κ β × Bool
  | nil => (nil, false)
  | node l k v r h =>
      match cmp key k with
      | .eq => (avlMovr l r, true)
      | .lt =>
          let (l', found) := avlRemoveRec cmp key l
          (if found then avlBalance (node l' k v r h) else node l' k v r h, found)
      | .gt =>
          let (r', found) := avlRemoveRec cmp key r
          (if found then avlBalance (node l k v r' h) else node l k v r' h, found)

def avlRemove (cmp : κ → κ → Ordering) (key : κ) (t : AvlTree κ β) : AvlTree κ β :=
  (avlRemoveRec cmp key t).1

/-- A write through the pointer that `avl_get` returned. -/
def avlModify (cmp : κ → κ → Ordering) (key : κ) (f : β → β) : AvlTree κ β → AvlTree κ β
  | nil => nil
  | node l k v r h =>
      match cmp key k with
      | .lt => node (avlModify cmp key f l) k v r h
      | .gt => node l k v (avlModify cmp key f r) h
      | .eq => node l k (f v) r h

/-- The entries that `avl_it_start_at` followed by `avl_it_next` returns on a
tree that stays as it is: the nodes where the descent goes left are pushed,
those where it goes right are not. -/
def avlFrom (cmp : κ → κ → Ordering) (key : κ) : AvlTree κ β → List (κ × β)
  | nil => []
  | node l k v r _ =>
      match cmp key k with
      | .lt => avlFrom cmp key l ++ (k, v) :: r.toList
      | .gt => avlFrom cmp key r
      | .eq => (k, v) :: r.toList

end WebcomSdk.Collection

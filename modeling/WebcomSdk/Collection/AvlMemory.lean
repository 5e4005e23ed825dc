import WebcomSdk.Collection.AvlSet
import WebcomSdk.Lib.Run

/-!
The tree of `lib/collection/avl.c` in memory: nodes at their addresses, linked by pointers
that the functions read and write. To read or to free what is not allocated ends the run
with `none`, as a recursion deeper than `fuel` does. `Holds` says which tree of the pure
model the nodes make up; every function of the C code keeps it and does to the tree what
the pure function does.
-/

namespace WebcomSdk.Collection.AvlMemory

open AvlTree Std WebcomSdk.Lib

/-! ### Nodes at addresses -/

/-- `struct avl_node`. The null pointer is 0. -/
structure AvlNode (κ β : Type) where
  l : ℕ
  r : ℕ
  height : ℕ
  key : κ
  val : β

/-- `struct avl` and the nodes that are allocated. `copied` and `cleaned` are the calls of
`data_copy` and `data_cleanup` so far. -/
structure AvlMem (κ β : Type) where
  nodes : ℕ → Option (AvlNode κ β)
  root : ℕ
  count : ℕ
  copied : List (κ × ℕ × β)
  cleaned : List (κ × ℕ × β)

/-- A `struct avl_node **`: the root of the tree or a pointer in a node. -/
inductive AvlLink where
  | avlRoot
  | left (n : ℕ)
  | right (n : ℕ)

variable {κ β : Type}

def avlNewMem : AvlMem κ β := ⟨fun _ => none, 0, 0, [], []⟩

namespace AvlMem

def write (m : AvlMem κ β) (n : ℕ) (node : AvlNode κ β) : AvlMem κ β :=
  { m with nodes := Function.update m.nodes n (some node) }

def modify (m : AvlMem κ β) (n : ℕ) (f : AvlNode κ β → AvlNode κ β) : Option (AvlMem κ β) :=
  (m.nodes n).map fun node => m.write n (f node)

def load (m : AvlMem κ β) : AvlLink → Option ℕ
  | .avlRoot => some m.root
  | .left n => (m.nodes n).map AvlNode.l
  | .right n => (m.nodes n).map AvlNode.r

def store (m : AvlMem κ β) (p : ℕ) : AvlLink → Option (AvlMem κ β)
  | .avlRoot => some { m with root := p }
  | .left n => m.modify n fun node => { node with l := p }
  | .right n => m.modify n fun node => { node with r := p }

/-- `data_cleanup` of the node, then `free`. -/
def cleanFree (m : AvlMem κ β) (n : ℕ) : Option (AvlMem κ β) :=
  (m.nodes n).map fun node => { m with
    nodes := Function.update m.nodes n none
    cleaned := m.cleaned ++ [(node.key, n, node.val)] }

/-- `n ? n->height : 0`. -/
def heightAt (m : AvlMem κ β) (n : ℕ) : Option ℕ :=
  if n = 0 then some 0 else (m.nodes n).map AvlNode.height

end AvlMem

/-! ### The functions -/

def avlUpdateHeight (n : ℕ) (m : AvlMem κ β) : Option (AvlMem κ β) := do
  let node ← m.nodes n
  let hl ← m.heightAt node.l
  let hr ← m.heightAt node.r
  m.modify n fun node => { node with height := max hl hr + 1 }

def avlDelta (n : ℕ) (m : AvlMem κ β) : Option ℤ := do
  let node ← m.nodes n
  let hl ← m.heightAt node.l
  let hr ← m.heightAt node.r
  return (hl : ℤ) - hr

def avlRotl (n : ℕ) (m : AvlMem κ β) : Option (ℕ × AvlMem κ β) := do
  let r := (← m.nodes n).r
  let rl := (← m.nodes r).l
  let m ← m.modify n fun node => { node with r := rl }
  let m ← m.modify r fun node => { node with l := n }
  let m ← avlUpdateHeight n m
  let m ← avlUpdateHeight r m
  return (r, m)

def avlRotr (n : ℕ) (m : AvlMem κ β) : Option (ℕ × AvlMem κ β) := do
  let l := (← m.nodes n).l
  let lr := (← m.nodes l).r
  let m ← m.modify n fun node => { node with l := lr }
  let m ← m.modify l fun node => { node with r := n }
  let m ← avlUpdateHeight n m
  let m ← avlUpdateHeight l m
  return (l, m)

/-- `if (avl_delta(n->r) > 0) n->r = avl_rotr(n->r)`. -/
def straightenRight (n : ℕ) (m : AvlMem κ β) : Option (AvlMem κ β) := do
  let r := (← m.nodes n).r
  if (← avlDelta r m) > 0 then
    let (r, m) ← avlRotr r m
    m.store r (.right n)
  else return m

/-- `if (avl_delta(n->l) < 0) n->l = avl_rotl(n->l)`. -/
def straightenLeft (n : ℕ) (m : AvlMem κ β) : Option (AvlMem κ β) := do
  let l := (← m.nodes n).l
  if (← avlDelta l m) < 0 then
    let (l, m) ← avlRotl l m
    m.store l (.left n)
  else return m

def avlBalance (n : ℕ) (m : AvlMem κ β) : Option (ℕ × AvlMem κ β) := do
  let d ← avlDelta n m
  if d < -1 then
    let m ← straightenRight n m
    avlRotl n m
  else if d > 1 then
    let m ← straightenLeft n m
    avlRotr n m
  else
    let m ← avlUpdateHeight n m
    return (n, m)

/-- `if (…) *root = avl_balance(*root)`. -/
def balanceIf (c : Bool) (root : AvlLink) (m : AvlMem κ β) : Option (AvlMem κ β) :=
  if c then do
    let (n, m) ← avlBalance (← m.load root) m
    m.store n root
  else some m

section Functions

variable (cmp : κ → κ → Ordering)

/-- The loop of `avl_get`. The result is the node, or the null pointer. -/
def avlGetFrom (key : κ) (m : AvlMem κ β) : ℕ → ℕ → Option ℕ
  | 0, _ => none
  | fuel + 1, n =>
      if n = 0 then some 0
      else do
        let node ← m.nodes n
        match cmp key node.key with
        | .lt => avlGetFrom key m fuel node.l
        | .gt => avlGetFrom key m fuel node.r
        | .eq => some n

/-- The result is what the C code returns, `*ins` and the memory. -/
def avlInsertRec (entry : ℕ) : ℕ → AvlLink → Bool → AvlMem κ β → Option (ℕ × Bool × AvlMem κ β)
  | 0, _, _, _ => none
  | fuel + 1, root, ins, m => do
      let node ← m.load root
      if node = 0 then
        let m ← m.store entry root
        let m ← m.modify entry fun node => { node with l := 0, r := 0, height := 1 }
        return (entry, true, m)
      else
        let c := cmp (← m.nodes entry).key (← m.nodes node).key
        let (node, ins, m) ←
          avlInsertRec entry fuel (if c = .lt then .left node else .right node) ins m
        let m ← balanceIf ins root m
        return (node, ins, m)

/-- `malloc` returns `ret`. -/
def avlInsert (fuel ret : ℕ) (key : κ) (val : β) (m : AvlMem κ β) : Option (ℕ × AvlMem κ β) := do
  if (← avlGetFrom cmp key m fuel m.root) ≠ 0 then return (0, m)
  let m := m.write ret ⟨0, 0, 0, key, val⟩
  let m := { m with copied := m.copied ++ [(key, ret, val)] }
  let (_, _, m) ← avlInsertRec cmp ret fuel .avlRoot false m
  return (ret, { m with count := m.count + 1 })

def avlMovr (r : ℕ) : ℕ → ℕ → AvlMem κ β → Option (ℕ × AvlMem κ β)
  | 0, _, _ => none
  | fuel + 1, n, m =>
      if n = 0 then some (r, m)
      else do
        let (r, m) ← avlMovr r fuel (← m.nodes n).r m
        let m ← m.store r (.right n)
        avlBalance n m

/-- The result is `parent`, which is null when the key was not found. -/
def avlRemoveRec (key : κ) : ℕ → AvlLink → ℕ → AvlMem κ β → Option (ℕ × AvlMem κ β)
  | 0, _, _, _ => none
  | fuel + 1, root, parent, m => do
      let r ← m.load root
      if r = 0 then return (0, m)
      let node ← m.nodes r
      match cmp key node.key with
      | .eq =>
          let (n, m) ← avlMovr node.r fuel node.l m
          let m ← m.store n root
          let m ← m.cleanFree r
          return (parent, { m with count := m.count - 1 })
      | .lt =>
          let (parent, m) ← avlRemoveRec key fuel (.left r) r m
          let m ← balanceIf (parent ≠ 0) root m
          return (parent, m)
      | .gt =>
          let (parent, m) ← avlRemoveRec key fuel (.right r) r m
          let m ← balanceIf (parent ≠ 0) root m
          return (parent, m)

/-- The C code works on a copy of `avl->root` and writes it back. -/
def avlRemove (fuel : ℕ) (key : κ) (m : AvlMem κ β) : Option (AvlMem κ β) :=
  (avlRemoveRec cmp key fuel .avlRoot m.root m).map Prod.snd

inductive AvlOrder where
  | preorder
  | inorder
  | postorder
  deriving DecidableEq

def avlWalkRec (order : AvlOrder) (walker : ℕ → AvlMem κ β → Option (AvlMem κ β)) :
    ℕ → ℕ → AvlMem κ β → Option (AvlMem κ β)
  | 0, _, _ => none
  | fuel + 1, root, m =>
      if root = 0 then some m
      else do
        let m ← if order = .preorder then walker root m else some m
        let m ← avlWalkRec order walker fuel (← m.nodes root).l m
        let m ← if order = .inorder then walker root m else some m
        let m ← avlWalkRec order walker fuel (← m.nodes root).r m
        if order = .postorder then walker root m else some m

def avlDestroyerWalker (data : ℕ) (m : AvlMem κ β) : Option (AvlMem κ β) := m.cleanFree data

def avlRemoveAll (fuel : ℕ) (m : AvlMem κ β) : Option (AvlMem κ β) := do
  let m ← avlWalkRec .postorder avlDestroyerWalker fuel m.root m
  return { m with root := 0, count := 0 }

/-- A call, its result read from where the pointer returned points to. `malloc` returns
`ret`. -/
def AvlMem.call (fuel ret : ℕ) (m : AvlMem κ β) :
    AvlCall κ β → Option (AvlMem κ β × AvlResult κ β)
  | .insert key val => do
      let (data, m) ← avlInsert cmp fuel ret key val m
      return (m, .inserted (data ≠ 0))
  | .remove key => do
      let m ← avlRemove cmp fuel key m
      return (m, .done)
  | .get key => do
      let data ← avlGetFrom cmp key m fuel m.root
      if data = 0 then return (m, .found none)
      let node ← m.nodes data
      return (m, .found (some (node.key, node.val)))
  | .count => some (m, .number m.count)
  | .removeAll => do
      let m ← avlRemoveAll fuel m
      return (m, .done)

end Functions

end WebcomSdk.Collection.AvlMemory

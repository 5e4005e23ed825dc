import WebcomSdk.Collection.AvlMemory

/-!
Which tree the nodes make up, and what the rotations do to it. A function may change the
nodes of the tree it is given and, through a pointer to a pointer, the node above; all
others it leaves alone.
-/

namespace WebcomSdk.Collection.AvlMemory

open AvlTree

variable {κ β : Type}

/-! ### What the nodes make up -/

/-- The addresses of the nodes, in order. -/
def addresses (t : AvlTree κ (ℕ × β)) : List ℕ := t.toList.map fun e => e.2.1

/-- The nodes from a pointer on make up the tree, whose entries carry their addresses. -/
inductive Holds (nodes : ℕ → Option (AvlNode κ β)) : ℕ → AvlTree κ (ℕ × β) → Prop
  | nil : Holds nodes 0 .nil
  | node {p pl pr h : ℕ} {k : κ} {v : β} {l r : AvlTree κ (ℕ × β)} (hp : p ≠ 0)
      (cell : nodes p = some ⟨pl, pr, h, k, v⟩) (left : Holds nodes pl l)
      (right : Holds nodes pr r) : Holds nodes p (.node l k (p, v) r h)

/-- Nothing happens to other nodes than these, and to the rest of the memory. -/
structure SameOutside (as : List ℕ) (m m' : AvlMem κ β) : Prop where
  nodes : ∀ q ∉ as, m'.nodes q = m.nodes q
  root : m'.root = m.root
  count : m'.count = m.count
  copied : m'.copied = m.copied
  cleaned : m'.cleaned = m.cleaned

section Memory

variable {as bs : List ℕ} {m m' m'' : AvlMem κ β} {t l r : AvlTree κ (ℕ × β)} {p n : ℕ}

@[simp] theorem addresses_nil : addresses (.nil : AvlTree κ (ℕ × β)) = [] := rfl

@[simp] theorem addresses_node (k : κ) (v : ℕ × β) (h : ℕ) :
    addresses (.node l k v r h) = addresses l ++ v.1 :: addresses r := by
  simp [addresses]

theorem addresses_congr {t' : AvlTree κ (ℕ × β)} (h : t'.toList = t.toList) :
    addresses t' = addresses t := by
  rw [addresses, h, addresses]

@[simp] theorem write_nodes_self (node : AvlNode κ β) : (m.write n node).nodes n = some node :=
  Function.update_self ..

theorem write_nodes_of_ne (node : AvlNode κ β) (h : p ≠ n) :
    (m.write n node).nodes p = m.nodes p :=
  Function.update_of_ne h ..

theorem modify_of_cell {node : AvlNode κ β} (h : m.nodes n = some node)
    (f : AvlNode κ β → AvlNode κ β) : m.modify n f = some (m.write n (f node)) := by
  rw [AvlMem.modify, h, Option.map_some]

theorem SameOutside.refl (m : AvlMem κ β) : SameOutside as m m :=
  ⟨fun _ _ => rfl, rfl, rfl, rfl, rfl⟩

theorem SameOutside.trans (h : SameOutside as m m') (h' : SameOutside as m' m'') :
    SameOutside as m m'' where
  nodes q hq := (h'.nodes q hq).trans (h.nodes q hq)
  root := h'.root.trans h.root
  count := h'.count.trans h.count
  copied := h'.copied.trans h.copied
  cleaned := h'.cleaned.trans h.cleaned

theorem SameOutside.mono (h : SameOutside as m m') (hsub : as ⊆ bs) : SameOutside bs m m' where
  nodes q hq := h.nodes q fun hmem => hq (hsub hmem)
  root := h.root
  count := h.count
  copied := h.copied
  cleaned := h.cleaned

theorem sameOutside_write (h : n ∈ as) (node : AvlNode κ β) :
    SameOutside as m (m.write n node) where
  nodes _ hq := write_nodes_of_ne node fun heq => hq (heq ▸ h)
  root := rfl
  count := rfl
  copied := rfl
  cleaned := rfl

theorem Holds.congr {nodes nodes' : ℕ → Option (AvlNode κ β)} (h : Holds nodes p t)
    (hsame : ∀ q ∈ addresses t, nodes' q = nodes q) : Holds nodes' p t := by
  induction h with
  | nil => exact .nil
  | node hp cell _ _ ihl ihr =>
      simp only [addresses_node, List.mem_append, List.mem_cons] at hsame
      refine .node hp ?_ (ihl fun q hq => hsame q (.inl hq)) (ihr fun q hq => ?_)
      · rw [hsame _ (.inr (.inl rfl)), cell]
      · exact hsame q (.inr (.inr hq))

/-- A step that leaves the nodes of a tree alone. -/
theorem Holds.same (h : Holds m.nodes p t) (hm : SameOutside as m m')
    (hdisjoint : ∀ q ∈ addresses t, q ∉ as) : Holds m'.nodes p t :=
  h.congr fun q hq => hm.nodes q (hdisjoint q hq)

theorem Holds.heightAt (h : Holds m.nodes p t) : m.heightAt p = some t.height := by
  cases h with
  | nil => rfl
  | node hp cell _ _ => rw [AvlMem.heightAt, if_neg hp, cell, Option.map_some, height_node]

theorem Holds.mem_addresses (h : Holds m.nodes p t) (hp : p ≠ 0) : p ∈ addresses t := by
  cases h with
  | nil => exact absurd rfl hp
  | node => simp

theorem Holds.ne_zero (h : Holds m.nodes p t) (ht : t ≠ .nil) : p ≠ 0 := by
  cases h with
  | nil => exact absurd rfl ht
  | node hp => exact hp

/-! ### Rotations -/

/-- A function that returns a pointer to a tree and has changed nothing but its nodes. -/
def Returns (as : List ℕ) (m : AvlMem κ β) (run : Option (ℕ × AvlMem κ β))
    (t : AvlTree κ (ℕ × β)) : Prop :=
  ∃ p m', run = some (p, m') ∧ Holds m'.nodes p t ∧ SameOutside as m m'

theorem avlDelta_spec (h : Holds m.nodes n t) (hn : n ≠ 0) :
    avlDelta n m = some (Collection.avlDelta t) := by
  cases h with
  | nil => exact absurd rfl hn
  | node hp cell left right =>
      rw [avlDelta, cell, Option.bind_eq_bind, Option.bind_some, left.heightAt, right.heightAt]
      rfl

theorem avlUpdateHeight_spec (h : Holds m.nodes n t) (hn : n ≠ 0)
    (hnodup : (addresses t).Nodup) :
    ∃ m', avlUpdateHeight n m = some m' ∧ Holds m'.nodes n (Collection.avlUpdateHeight t) ∧
      SameOutside [n] m m' := by
  cases h with
  | nil => exact absurd rfl hn
  | @node _ pl pr h k v l r hp cell left right =>
      simp only [addresses_node, List.nodup_append, List.nodup_cons] at hnodup
      have hsame : SameOutside [n] m (m.write n ⟨pl, pr, max l.height r.height + 1, k, v⟩) :=
        sameOutside_write List.mem_cons_self _
      refine ⟨_, ?_, ?_, hsame⟩
      · rw [avlUpdateHeight, cell, Option.bind_eq_bind, Option.bind_some, left.heightAt,
          right.heightAt]
        exact modify_of_cell cell _
      · refine .node hp (write_nodes_self _) (left.same hsame fun q hq => ?_)
          (right.same hsame fun q hq => ?_)
        · rw [List.mem_singleton]
          exact hnodup.2.2 q hq n List.mem_cons_self
        · rw [List.mem_singleton]
          rintro rfl
          exact hnodup.2.1.1 hq

theorem avlRotl_spec {k rk : κ} {v rv : ℕ × β} {rl rr : AvlTree κ (ℕ × β)} {h rh : ℕ}
    (ht : t = .node l k v (.node rl rk rv rr rh) h) (hold : Holds m.nodes n t)
    (hnodup : (addresses t).Nodup) :
    Returns (addresses t) m (avlRotl n m) (Collection.avlRotl t) := by
  subst ht
  obtain ⟨n', v⟩ := v
  obtain ⟨p, rv⟩ := rv
  obtain _ | ⟨hn, cell, left, right⟩ := hold
  obtain _ | ⟨hp, rcell, rleft, rright⟩ := right
  rename_i pl prl prr
  have hlist : addresses (.node l k (n, v) (.node rl rk (p, rv) rr rh) h) =
      (addresses l ++ n :: addresses rl) ++ p :: addresses rr := by simp
  rw [hlist] at hnodup ⊢
  have hinner := (List.nodup_append.mp hnodup).1
  have hdis : n ≠ p ∧ (∀ q ∈ addresses l, q ≠ n ∧ q ≠ p) ∧ (∀ q ∈ addresses rl, q ≠ n ∧ q ≠ p) ∧
      ∀ q ∈ addresses rr, q ≠ n ∧ q ≠ p := by
    simp only [List.nodup_append, List.nodup_cons, List.mem_append, List.mem_cons] at hnodup
    grind
  obtain ⟨hne, hl, hrl, hrr⟩ := hdis
  -- the two nodes with their new children
  let m₁ := (m.write n ⟨pl, prl, h, k, v⟩).write p ⟨n, prr, rh, rk, rv⟩
  have hsame₁ : SameOutside [n, p] m m₁ :=
    (sameOutside_write (by simp) _).trans (sameOutside_write (by simp) _)
  have hout : ∀ {s : AvlTree κ (ℕ × β)}, (∀ q ∈ addresses s, q ≠ n ∧ q ≠ p) →
      ∀ q ∈ addresses s, q ∉ [n, p] := fun hs q hq => by simpa using hs q hq
  have hcell₁ : m₁.nodes n = some ⟨pl, prl, h, k, v⟩ := by
    rw [write_nodes_of_ne _ hne, write_nodes_self]
  obtain ⟨m₂, hrun₂, hold₂, hsame₂⟩ := avlUpdateHeight_spec (m := m₁)
    (.node hn hcell₁ (left.same hsame₁ (hout hl)) (rleft.same hsame₁ (hout hrl)))
    hn (by rwa [addresses_node])
  have hcell₂ : m₂.nodes p = some ⟨n, prr, rh, rk, rv⟩ := by
    rw [hsame₂.nodes p (by simpa using hne.symm), write_nodes_self]
  have hrr₂ : Holds m₂.nodes prr rr := (rright.same hsame₁ (hout hrr)).same hsame₂ fun q hq => by
    simpa using (hrr q hq).1
  obtain ⟨m₃, hrun₃, hold₃, hsame₃⟩ := avlUpdateHeight_spec (.node hp hcell₂ hold₂ hrr₂)
    hp (by rwa [addresses_node, addresses_congr (toList_avlUpdateHeight _), addresses_node])
  refine ⟨p, m₃, ?_, hold₃, ?_⟩
  · have hwritten : (m.write n ⟨pl, prl, h, k, v⟩).nodes p = some ⟨prl, prr, rh, rk, rv⟩ := by
      rw [write_nodes_of_ne _ hne.symm, rcell]
    simp only [avlRotl, Option.bind_eq_bind, cell, rcell, Option.bind_some,
      modify_of_cell cell, modify_of_cell hwritten]
    show (avlUpdateHeight n m₁).bind _ = _
    rw [hrun₂, Option.bind_some, hrun₃]
    rfl
  · exact (hsame₁.mono (by simp)).trans ((hsame₂.mono (by simp)).trans (hsame₃.mono (by simp)))

theorem avlRotr_spec {k lk : κ} {v lv : ℕ × β} {ll lr : AvlTree κ (ℕ × β)} {h lh : ℕ}
    (ht : t = .node (.node ll lk lv lr lh) k v r h) (hold : Holds m.nodes n t)
    (hnodup : (addresses t).Nodup) :
    Returns (addresses t) m (avlRotr n m) (Collection.avlRotr t) := by
  subst ht
  obtain ⟨n', v⟩ := v
  obtain ⟨p, lv⟩ := lv
  obtain _ | ⟨hn, cell, left, right⟩ := hold
  obtain _ | ⟨hp, lcell, lleft, lright⟩ := left
  rename_i pr pll plr
  have hlist : addresses (.node (.node ll lk (p, lv) lr lh) k (n, v) r h) =
      addresses ll ++ p :: (addresses lr ++ n :: addresses r) := by simp
  rw [hlist] at hnodup ⊢
  have hinner := (List.nodup_cons.mp (List.nodup_append.mp hnodup).2.1).2
  have hdis : n ≠ p ∧ (∀ q ∈ addresses ll, q ≠ n ∧ q ≠ p) ∧ (∀ q ∈ addresses lr, q ≠ n ∧ q ≠ p) ∧
      ∀ q ∈ addresses r, q ≠ n ∧ q ≠ p := by
    simp only [List.nodup_append, List.nodup_cons, List.mem_append, List.mem_cons] at hnodup
    grind
  obtain ⟨hne, hll, hlr, hr⟩ := hdis
  -- the two nodes with their new children
  let m₁ := (m.write n ⟨plr, pr, h, k, v⟩).write p ⟨pll, n, lh, lk, lv⟩
  have hsame₁ : SameOutside [n, p] m m₁ :=
    (sameOutside_write (by simp) _).trans (sameOutside_write (by simp) _)
  have hout : ∀ {s : AvlTree κ (ℕ × β)}, (∀ q ∈ addresses s, q ≠ n ∧ q ≠ p) →
      ∀ q ∈ addresses s, q ∉ [n, p] := fun hs q hq => by simpa using hs q hq
  have hcell₁ : m₁.nodes n = some ⟨plr, pr, h, k, v⟩ := by
    rw [write_nodes_of_ne _ hne, write_nodes_self]
  obtain ⟨m₂, hrun₂, hold₂, hsame₂⟩ := avlUpdateHeight_spec (m := m₁)
    (.node hn hcell₁ (lright.same hsame₁ (hout hlr)) (right.same hsame₁ (hout hr)))
    hn (by rwa [addresses_node])
  have hcell₂ : m₂.nodes p = some ⟨pll, n, lh, lk, lv⟩ := by
    rw [hsame₂.nodes p (by simpa using hne.symm), write_nodes_self]
  have hll₂ : Holds m₂.nodes pll ll := (lleft.same hsame₁ (hout hll)).same hsame₂ fun q hq => by
    simpa using (hll q hq).1
  obtain ⟨m₃, hrun₃, hold₃, hsame₃⟩ := avlUpdateHeight_spec (.node hp hcell₂ hll₂ hold₂)
    hp (by rwa [addresses_node, addresses_congr (toList_avlUpdateHeight _), addresses_node])
  refine ⟨p, m₃, ?_, hold₃, ?_⟩
  · have hwritten : (m.write n ⟨plr, pr, h, k, v⟩).nodes p = some ⟨pll, plr, lh, lk, lv⟩ := by
      rw [write_nodes_of_ne _ hne.symm, lcell]
    simp only [avlRotr, Option.bind_eq_bind, cell, lcell, Option.bind_some,
      modify_of_cell cell, modify_of_cell hwritten]
    show (avlUpdateHeight n m₁).bind _ = _
    rw [hrun₂, Option.bind_some, hrun₃]
    rfl
  · exact (hsame₁.mono (by simp)).trans ((hsame₂.mono (by simp)).trans (hsame₃.mono (by simp)))

/-! ### Pointers to pointers -/

/-- The pointer is not in one of these nodes. -/
def AvlLink.Outside (as : List ℕ) : AvlLink → Prop
  | .avlRoot => True
  | .left n | .right n => n ∉ as

/-- The pointer is `p` now, and otherwise only these nodes have changed. -/
def Relinked (as : List ℕ) (link : AvlLink) (p : ℕ) (m m' : AvlMem κ β) : Prop :=
  ∃ m₀, m.store p link = some m₀ ∧ SameOutside as m₀ m'

variable {link : AvlLink} {q : ℕ}

theorem AvlLink.Outside.mono (h : link.Outside bs) (hsub : as ⊆ bs) : link.Outside as := by
  cases link with
  | avlRoot => trivial
  | left n => exact fun hn => h (hsub hn)
  | right n => exact fun hn => h (hsub hn)

theorem load_same (h : SameOutside as m m') (hlink : link.Outside as) :
    m'.load link = m.load link := by
  cases link with
  | avlRoot => exact congrArg some h.root
  | left n => exact congrArg (Option.map AvlNode.l) (h.nodes n hlink)
  | right n => exact congrArg (Option.map AvlNode.r) (h.nodes n hlink)

theorem load_left {node : AvlNode κ β} (h : m.nodes n = some node) :
    m.load (.left n) = some node.l := congrArg (Option.map AvlNode.l) h

theorem load_right {node : AvlNode κ β} (h : m.nodes n = some node) :
    m.load (.right n) = some node.r := congrArg (Option.map AvlNode.r) h

theorem exists_store (h : m.load link = some q) (p : ℕ) : ∃ m', m.store p link = some m' := by
  cases link with
  | avlRoot => exact ⟨_, rfl⟩
  | left n =>
      obtain ⟨node, hnode, -⟩ := Option.map_eq_some_iff.mp h
      exact ⟨_, modify_of_cell hnode _⟩
  | right n =>
      obtain ⟨node, hnode, -⟩ := Option.map_eq_some_iff.mp h
      exact ⟨_, modify_of_cell hnode _⟩

theorem write_same (h : SameOutside as m m') (n : ℕ) (node : AvlNode κ β) :
    SameOutside as (m.write n node) (m'.write n node) where
  nodes q hq := by
    by_cases heq : q = n
    · rw [heq, write_nodes_self, write_nodes_self]
    · rw [write_nodes_of_ne _ heq, write_nodes_of_ne _ heq, h.nodes q hq]
  root := h.root
  count := h.count
  copied := h.copied
  cleaned := h.cleaned

/-- What is written through the pointer does not depend on the nodes elsewhere. -/
theorem store_same (h : SameOutside as m m') (hlink : link.Outside as) {m₀ : AvlMem κ β}
    (hstore : m.store p link = some m₀) :
    ∃ m₀', m'.store p link = some m₀' ∧ SameOutside as m₀ m₀' := by
  cases link with
  | avlRoot =>
      cases hstore
      exact ⟨_, rfl, h.nodes, rfl, h.count, h.copied, h.cleaned⟩
  | left n =>
      obtain ⟨node, hnode, rfl⟩ := Option.map_eq_some_iff.mp hstore
      exact ⟨_, modify_of_cell ((h.nodes n hlink).trans hnode) _, write_same h n _⟩
  | right n =>
      obtain ⟨node, hnode, rfl⟩ := Option.map_eq_some_iff.mp hstore
      exact ⟨_, modify_of_cell ((h.nodes n hlink).trans hnode) _, write_same h n _⟩

/-- A tree that the pointer is not in stays as it is. -/
theorem nodes_store (hlink : link.Outside as) (hstore : m.store p link = some m') :
    ∀ q ∈ as, m'.nodes q = m.nodes q := by
  intro q hq
  cases link with
  | avlRoot =>
      cases hstore
      rfl
  | left n =>
      obtain ⟨node, -, rfl⟩ := Option.map_eq_some_iff.mp hstore
      exact write_nodes_of_ne _ fun heq => hlink (heq ▸ hq)
  | right n =>
      obtain ⟨node, -, rfl⟩ := Option.map_eq_some_iff.mp hstore
      exact write_nodes_of_ne _ fun heq => hlink (heq ▸ hq)

theorem Relinked.mono (h : Relinked as link p m m') (hsub : as ⊆ bs) : Relinked bs link p m m' := by
  obtain ⟨m₀, hstore, hsame⟩ := h
  exact ⟨m₀, hstore, hsame.mono hsub⟩

theorem Relinked.after (hsame : SameOutside as m m') (hlink : link.Outside as)
    (hload : m.load link = some q) (h : Relinked as link p m' m'') : Relinked as link p m m'' := by
  obtain ⟨m₀, hstore⟩ := exists_store hload p
  obtain ⟨m₁, hstore', hsame'⟩ := h
  obtain ⟨m₂, hstore₂, hsame₂⟩ := store_same hsame hlink hstore
  obtain rfl : m₂ = m₁ := Option.some.inj (hstore₂.symm.trans hstore')
  exact ⟨m₀, hstore, hsame₂.trans hsame'⟩

/-- The pointer is written after the nodes have changed. -/
theorem relinked_of_store (link : AvlLink) (hsame : SameOutside as m m') (hlink : link.Outside as)
    (hload : m.load link = some q) (p : ℕ) : ∃ m'', m'.store p link = some m'' ∧
      Relinked as link p m m'' ∧ ∀ q ∈ as, m''.nodes q = m'.nodes q := by
  obtain ⟨m₀, hstore⟩ := exists_store hload p
  obtain ⟨m'', hstore', hsame'⟩ := store_same hsame hlink hstore
  exact ⟨m'', hstore', ⟨m₀, hstore, hsame'⟩, nodes_store hlink hstore'⟩

/-- A function on the left subtree is done, and the node has its new left subtree. -/
theorem Relinked.left {pl pr h : ℕ} {k : κ} {v : β} {l' : AvlTree κ (ℕ × β)} (hn : n ≠ 0)
    (cell : m.nodes n = some ⟨pl, pr, h, k, v⟩) (right : Holds m.nodes pr r)
    (hre : Relinked as (.left n) p m m') (left : Holds m'.nodes p l') (hnas : n ∉ as)
    (hr : ∀ q ∈ addresses r, q ∉ as ∧ q ≠ n) :
    Holds m'.nodes n (.node l' k (n, v) r h) ∧ SameOutside (n :: as) m m' := by
  obtain ⟨m₀, hstore, hsame⟩ := hre
  obtain rfl : m.write n ⟨p, pr, h, k, v⟩ = m₀ :=
    Option.some.inj ((modify_of_cell cell _).symm.trans hstore)
  have hwrite : SameOutside [n] m (m.write n ⟨p, pr, h, k, v⟩) :=
    sameOutside_write List.mem_cons_self _
  have hcell : m'.nodes n = some ⟨p, pr, h, k, v⟩ := by
    rw [hsame.nodes n hnas, write_nodes_self]
  refine ⟨.node hn hcell left ?_, ?_⟩
  · exact (right.same hwrite fun q hq => by simpa using (hr q hq).2).same hsame
      fun q hq => (hr q hq).1
  · exact (hwrite.mono (by simp)).trans (hsame.mono (List.subset_cons_self ..))

/-- A function on the right subtree is done, and the node has its new right subtree. -/
theorem Relinked.right {pl pr h : ℕ} {k : κ} {v : β} {r' : AvlTree κ (ℕ × β)} (hn : n ≠ 0)
    (cell : m.nodes n = some ⟨pl, pr, h, k, v⟩) (left : Holds m.nodes pl l)
    (hre : Relinked as (.right n) p m m') (right : Holds m'.nodes p r') (hnas : n ∉ as)
    (hl : ∀ q ∈ addresses l, q ∉ as ∧ q ≠ n) :
    Holds m'.nodes n (.node l k (n, v) r' h) ∧ SameOutside (n :: as) m m' := by
  obtain ⟨m₀, hstore, hsame⟩ := hre
  obtain rfl : m.write n ⟨pl, p, h, k, v⟩ = m₀ :=
    Option.some.inj ((modify_of_cell cell _).symm.trans hstore)
  have hwrite : SameOutside [n] m (m.write n ⟨pl, p, h, k, v⟩) :=
    sameOutside_write List.mem_cons_self _
  have hcell : m'.nodes n = some ⟨pl, p, h, k, v⟩ := by
    rw [hsame.nodes n hnas, write_nodes_self]
  refine ⟨.node hn hcell ?_ right, ?_⟩
  · exact (left.same hwrite fun q hq => by simpa using (hl q hq).2).same hsame
      fun q hq => (hl q hq).1
  · exact (hwrite.mono (by simp)).trans (hsame.mono (List.subset_cons_self ..))

/-! ### Rebalancing -/

/-- The addresses of a node and of its two subtrees are apart. -/
theorem apart_of_nodup {k : κ} {v : ℕ × β} {h : ℕ} (hnodup : (addresses (.node l k v r h)).Nodup) :
    (addresses l).Nodup ∧ (addresses r).Nodup ∧ v.1 ∉ addresses l ∧ v.1 ∉ addresses r ∧
      (∀ q ∈ addresses l, q ∉ addresses r ∧ q ≠ v.1) ∧
      ∀ q ∈ addresses r, q ∉ addresses l ∧ q ≠ v.1 := by
  simp only [addresses_node, List.nodup_append, List.nodup_cons, List.mem_cons] at hnodup
  grind

theorem cons_left_subset {k : κ} {v : β} {h : ℕ} :
    n :: addresses l ⊆ addresses (.node l k (n, v) r h) := by
  intro q hq
  rw [addresses_node, List.mem_append, List.mem_cons]
  exact (List.mem_cons.mp hq).elim (fun heq => .inr (.inl heq)) .inl

theorem cons_right_subset {k : κ} {v : β} {h : ℕ} :
    n :: addresses r ⊆ addresses (.node l k (n, v) r h) := by
  rw [addresses_node]
  exact List.subset_append_right ..

theorem cons_cons_subset (a : ℕ) (h : n :: as ⊆ bs) : n :: a :: as ⊆ a :: bs := by
  obtain ⟨hn, has⟩ := List.cons_subset.mp h
  exact List.cons_subset.mpr ⟨List.mem_cons_of_mem a hn, List.cons_subset_cons a has⟩

theorem exists_node_of_height (ht : 0 < t.height) : ∃ l k v r h, t = .node l k v r h := by
  cases t with
  | nil => exact absurd ht (Nat.lt_irrefl 0)
  | node l k v r h => exact ⟨l, k, v, r, h, rfl⟩

theorem straightenRight_spec {k : κ} {v : β} {h : ℕ}
    (hold : Holds m.nodes n (.node l k (n, v) r h)) (hr : 0 < r.height)
    (hnodup : (addresses (.node l k (n, v) r h)).Nodup) :
    ∃ m', straightenRight n m = some m' ∧ SameOutside (addresses (.node l k (n, v) r h)) m m' ∧
      Holds m'.nodes n (.node l k (n, v)
        (if Collection.avlDelta r > 0 then Collection.avlRotr r else r) h) := by
  obtain _ | ⟨hn, cell, left, right⟩ := hold
  rename_i pl pr
  obtain ⟨hln, hrn, hnl, hnr, hl, -⟩ := apart_of_nodup hnodup
  have hpr : pr ≠ 0 := right.ne_zero (by rintro rfl; exact absurd hr (Nat.lt_irrefl 0))
  rw [straightenRight, cell, Option.bind_eq_bind, Option.bind_some]
  show ∃ m', Option.bind (avlDelta pr m) _ = some m' ∧ _
  rw [avlDelta_spec right hpr, Option.bind_some]
  by_cases hpos : Collection.avlDelta r > 0
  · -- the left child of `r` is the higher one
    obtain ⟨rl, rk, rv, rr, rh, rfl⟩ := exists_node_of_height hr
    obtain ⟨ll, lk, lv, lr, lh, rfl⟩ := exists_node_of_height (t := rl) (by
      simp only [Collection.avlDelta] at hpos
      omega)
    obtain ⟨p, m₁, hrun, hold₁, hsame₁⟩ := avlRotr_spec rfl right hrn
    obtain ⟨m₂, hstore, hre, hnodes⟩ := relinked_of_store (.right n) hsame₁ hnr
      (load_right cell) p
    rw [← addresses_congr (toList_avlRotr _)] at hnodes
    obtain ⟨hold₂, hsame₂⟩ := hre.right hn cell left (hold₁.congr hnodes) hnr hl
    refine ⟨m₂, ?_, hsame₂.mono cons_right_subset, ?_⟩
    · rw [if_pos hpos, hrun]
      exact hstore
    · rwa [if_pos hpos]
  · rw [if_neg hpos, if_neg hpos]
    exact ⟨m, rfl, .refl m, .node hn cell left right⟩

theorem straightenLeft_spec {k : κ} {v : β} {h : ℕ}
    (hold : Holds m.nodes n (.node l k (n, v) r h)) (hl : 0 < l.height)
    (hnodup : (addresses (.node l k (n, v) r h)).Nodup) :
    ∃ m', straightenLeft n m = some m' ∧ SameOutside (addresses (.node l k (n, v) r h)) m m' ∧
      Holds m'.nodes n (.node (if Collection.avlDelta l < 0 then Collection.avlRotl l else l) k
        (n, v) r h) := by
  obtain _ | ⟨hn, cell, left, right⟩ := hold
  rename_i pl pr
  obtain ⟨hln, hrn, hnl, hnr, -, hr⟩ := apart_of_nodup hnodup
  have hpl : pl ≠ 0 := left.ne_zero (by rintro rfl; exact absurd hl (Nat.lt_irrefl 0))
  rw [straightenLeft, cell, Option.bind_eq_bind, Option.bind_some]
  show ∃ m', Option.bind (avlDelta pl m) _ = some m' ∧ _
  rw [avlDelta_spec left hpl, Option.bind_some]
  by_cases hneg : Collection.avlDelta l < 0
  · -- the right child of `l` is the higher one
    obtain ⟨ll, lk, lv, lr, lh, rfl⟩ := exists_node_of_height hl
    obtain ⟨rl, rk, rv, rr, rh, rfl⟩ := exists_node_of_height (t := lr) (by
      simp only [Collection.avlDelta] at hneg
      omega)
    obtain ⟨p, m₁, hrun, hold₁, hsame₁⟩ := avlRotl_spec rfl left hln
    obtain ⟨m₂, hstore, hre, hnodes⟩ := relinked_of_store (.left n) hsame₁ hnl
      (load_left cell) p
    rw [← addresses_congr (toList_avlRotl _)] at hnodes
    obtain ⟨hold₂, hsame₂⟩ := hre.left hn cell right (hold₁.congr hnodes) hnl hr
    refine ⟨m₂, ?_, hsame₂.mono cons_left_subset, ?_⟩
    · rw [if_pos hneg, hrun]
      exact hstore
    · rwa [if_pos hneg]
  · rw [if_neg hneg, if_neg hneg]
    exact ⟨m, rfl, .refl m, .node hn cell left right⟩

theorem Returns.after {t' : AvlTree κ (ℕ × β)} {run : Option (ℕ × AvlMem κ β)}
    (hsame : SameOutside as m m') (h : Returns as m' run t') : Returns as m run t' := by
  obtain ⟨p, m'', hrun, hold, hsame'⟩ := h
  exact ⟨p, m'', hrun, hold, hsame.trans hsame'⟩

theorem toList_straightRight (r : AvlTree κ (ℕ × β)) :
    (if Collection.avlDelta r > 0 then Collection.avlRotr r else r).toList = r.toList := by
  split
  · exact toList_avlRotr r
  · rfl

theorem toList_straightLeft (l : AvlTree κ (ℕ × β)) :
    (if Collection.avlDelta l < 0 then Collection.avlRotl l else l).toList = l.toList := by
  split
  · exact toList_avlRotl l
  · rfl

theorem exists_node_of_toList {s : AvlTree κ (ℕ × β)} (hs : s.toList = t.toList)
    (ht : 0 < t.height) : ∃ l k v r h, s = .node l k v r h := by
  obtain ⟨l, k, v, r, h, rfl⟩ := exists_node_of_height ht
  cases s with
  | nil => simp at hs
  | node l k v r h => exact ⟨l, k, v, r, h, rfl⟩

/-- `avl_balance` rotates only where there is a child to rotate, whatever the heights are. -/
theorem avlBalance_spec (hold : Holds m.nodes n t) (hn : n ≠ 0) (hnodup : (addresses t).Nodup) :
    Returns (addresses t) m (avlBalance n m) (Collection.avlBalance t) := by
  have hdelta := avlDelta_spec hold hn
  obtain _ | @⟨_, pl, pr, h, k, v, l, r, -, cell, left, right⟩ := hold
  · exact absurd rfl hn
  have hold : Holds m.nodes n (.node l k (n, v) r h) := .node hn cell left right
  have hheights : Collection.avlDelta (.node l k (n, v) r h) = (l.height : ℤ) - r.height := rfl
  simp only [avlBalance, hdelta, Option.bind_eq_bind, Option.bind_some, Collection.avlBalance]
  by_cases hlow : Collection.avlDelta (.node l k (n, v) r h) < -1
  · have hr : 0 < r.height := by omega
    obtain ⟨m₁, hrun, hsame, hold₁⟩ := straightenRight_spec hold hr hnodup
    have hlist := toList_straightRight r
    rw [if_pos hlow, if_pos hlow, hrun, Option.bind_some]
    obtain ⟨rl, rk, rv, rr, rh, hr'⟩ := exists_node_of_toList hlist hr
    rw [hr'] at hold₁ hlist ⊢
    have hsameList : addresses (.node l k (n, v) (.node rl rk rv rr rh) h) =
        addresses (.node l k (n, v) r h) :=
      addresses_congr (congrArg (l.toList ++ (k, n, v) :: ·) hlist)
    rw [← hsameList] at hsame hnodup ⊢
    exact .after hsame (avlRotl_spec rfl hold₁ hnodup)
  · rw [if_neg hlow, if_neg hlow]
    by_cases hhigh : Collection.avlDelta (.node l k (n, v) r h) > 1
    · have hl : 0 < l.height := by omega
      obtain ⟨m₁, hrun, hsame, hold₁⟩ := straightenLeft_spec hold hl hnodup
      have hlist := toList_straightLeft l
      rw [if_pos hhigh, if_pos hhigh, hrun, Option.bind_some]
      obtain ⟨ll, lk, lv, lr, lh, hl'⟩ := exists_node_of_toList hlist hl
      rw [hl'] at hold₁ hlist ⊢
      have hsameList : addresses (.node (.node ll lk lv lr lh) k (n, v) r h) =
          addresses (.node l k (n, v) r h) :=
        addresses_congr (congrArg (· ++ (k, n, v) :: r.toList) hlist)
      rw [← hsameList] at hsame hnodup ⊢
      exact .after hsame (avlRotr_spec rfl hold₁ hnodup)
    · rw [if_neg hhigh, if_neg hhigh]
      obtain ⟨m₁, hrun, hold₁, hsame⟩ := avlUpdateHeight_spec hold hn hnodup
      rw [hrun]
      exact ⟨n, m₁, rfl, hold₁, hsame.mono (by simp)⟩

theorem balanceIf_spec (hload : m.load link = some n) (hold : Holds m.nodes n t) (hn : n ≠ 0)
    (hlink : link.Outside (addresses t)) (hnodup : (addresses t).Nodup) :
    ∃ p m', balanceIf true link m = some m' ∧ Relinked (addresses t) link p m m' ∧
      Holds m'.nodes p (Collection.avlBalance t) := by
  obtain ⟨p, m₁, hrun, hold₁, hsame⟩ := avlBalance_spec hold hn hnodup
  obtain ⟨m₂, hstore, hre, hnodes⟩ := relinked_of_store link hsame hlink hload p
  rw [← addresses_congr (toList_avlBalance t)] at hnodes
  refine ⟨p, m₂, ?_, hre, hold₁.congr hnodes⟩
  simp only [balanceIf, if_true, hload, hrun, Option.bind_eq_bind, Option.bind_some, hstore]

/-- A subtree has changed, and the node above it is balanced. -/
theorem balanceIf_after (hsame : SameOutside as m m') (hlink : link.Outside as)
    (hload : m.load link = some n) (hold : Holds m'.nodes n t) (hn : n ≠ 0)
    (hsub : addresses t ⊆ as) (hnodup : (addresses t).Nodup) :
    ∃ p m'', balanceIf true link m' = some m'' ∧ Relinked as link p m m'' ∧
      Holds m''.nodes p (Collection.avlBalance t) ∧
      ∀ q ∈ as, q ∉ addresses t → m''.nodes q = m'.nodes q := by
  obtain ⟨p, m'', hrun, hre, hold'⟩ := balanceIf_spec ((load_same hsame hlink).trans hload) hold hn
    (hlink.mono hsub) hnodup
  refine ⟨p, m'', hrun, .after hsame hlink hload (hre.mono hsub), hold', fun q hq hqt => ?_⟩
  obtain ⟨m₀, hstore, hsame₀⟩ := hre
  exact (hsame₀.nodes q hqt).trans (nodes_store hlink hstore q hq)

end Memory

end WebcomSdk.Collection.AvlMemory

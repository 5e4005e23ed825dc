import WebcomSdk.Cache.DataCache
import WebcomSdk.Lib.Run

/-!
A cached hash is the hash of the data. Whatever the writes to the cache and the
calls of `treenode_hash_get`, a node whose flag is set stores the hash of what
its subtree holds now. A write clears the flags along its path before it changes
anything under them; below the path it only puts in new nodes, without flags.
-/

namespace WebcomSdk.Cache

open WebcomSdk.Lib WebcomSdk.Collection WebcomSdk.Datasync Std

/-! ### Every node of a tree -/

mutual

/-- `P` holds of the node and of every node below it. -/
def Treenode.Forall (P : Treenode → Prop) : Treenode → Prop
  | .internal children hash => P (.internal children hash) ∧ childrenForall P children
  | .leafNull => P .leafNull
  | .leafBool b => P (.leafBool b)
  | .leafNumber d h => P (.leafNumber d h)
  | .leafString s h => P (.leafString s h)

def childrenForall (P : Treenode → Prop) : Children → Prop
  | .nil => True
  | .node l _ n r _ => childrenForall P l ∧ n.Forall P ∧ childrenForall P r

end

section Forall

variable {P : Treenode → Prop}

theorem childrenForall_iff {t : Children} :
    childrenForall P t ↔ ∀ e ∈ t.toList, e.2.Forall P := by
  induction t with
  | nil => simp [childrenForall]
  | node l k n r h ihl ihr =>
      rw [childrenForall, ihl, ihr, AvlTree.toList_node, List.forall_mem_append,
        List.forall_mem_cons]

theorem Treenode.Forall.self {n : Treenode} (h : n.Forall P) : P n := by
  cases n with
  | internal children hash => exact h.1
  | _ => exact h

mutual

theorem Treenode.Forall.imp {Q : Treenode → Prop} (hPQ : ∀ n, P n → Q n) :
    ∀ n : Treenode, n.Forall P → n.Forall Q
  | .internal children _, h => ⟨hPQ _ h.1, childrenForall.imp hPQ children h.2⟩
  | .leafNull, h => hPQ _ h
  | .leafBool _, h => hPQ _ h
  | .leafNumber _ _, h => hPQ _ h
  | .leafString _ _, h => hPQ _ h

theorem childrenForall.imp {Q : Treenode → Prop} (hPQ : ∀ n, P n → Q n) :
    ∀ t : Children, childrenForall P t → childrenForall Q t
  | .nil, _ => trivial
  | .node l _ n r _, h =>
      ⟨childrenForall.imp hPQ l h.1, Treenode.Forall.imp hPQ n h.2.1,
        childrenForall.imp hPQ r h.2.2⟩

end

mutual

/-- A property of every node of a tree is one of every node of its subtrees. -/
theorem Treenode.Forall.subtrees : ∀ n : Treenode, n.Forall P → n.Forall (Treenode.Forall P)
  | .internal children _, h => ⟨h, childrenForall.subtrees children h.2⟩
  | .leafNull, h => h
  | .leafBool _, h => h
  | .leafNumber _ _, h => h
  | .leafString _ _, h => h

theorem childrenForall.subtrees :
    ∀ t : Children, childrenForall P t → childrenForall (Treenode.Forall P) t
  | .nil, _ => trivial
  | .node l _ n r _, h =>
      ⟨childrenForall.subtrees l h.1, Treenode.Forall.subtrees n h.2.1,
        childrenForall.subtrees r h.2.2⟩

end

end Forall

/-! ### Hashing -/

section Hash

variable (wcSHA1 : SHA1) (keyCmp : Key → Key → Ordering)

/-- The children are in a search tree, and the hash is right if the flag is
set. -/
structure NodeOk (n : Treenode) : Prop where
  ordered : ∀ children hash, n = .internal children hash → children.Ordered keyCmp
  cached : ∀ h, n.cachedHash = some h → scratchHash wcSHA1 n = some h

/-- The children of an internal node: a search tree of good subtrees. -/
structure ChildrenOk (t : Children) : Prop where
  ordered : t.Ordered keyCmp
  all : ∀ e ∈ t.toList, e.2.Forall (NodeOk wcSHA1 keyCmp)

variable {wcSHA1 keyCmp}

theorem forall_internal_none_iff {t : Children} :
    (Treenode.internal t none).Forall (NodeOk wcSHA1 keyCmp) ↔ ChildrenOk wcSHA1 keyCmp t := by
  rw [Treenode.Forall, childrenForall_iff]
  constructor
  · rintro ⟨hn, hall⟩
    exact ⟨hn.ordered _ _ rfl, hall⟩
  · rintro ⟨hord, hall⟩
    refine ⟨⟨?_, ?_⟩, hall⟩
    · rintro children hash ⟨⟩
      exact hord
    · rintro h ⟨⟩

theorem Treenode.Forall.childrenOk {t : Children} {hash : Option TreenodeHash}
    (h : (Treenode.internal t hash).Forall (NodeOk wcSHA1 keyCmp)) : ChildrenOk wcSHA1 keyCmp t :=
  ⟨h.self.ordered _ _ rfl, childrenForall_iff.mp h.2⟩

theorem nodeOk_of_cachedHash_none {n : Treenode} (hn : ∀ t h, n ≠ .internal t h)
    (hnone : n.cachedHash = none) : NodeOk wcSHA1 keyCmp n :=
  ⟨fun t h heq => absurd heq (hn t h), fun h hh => by rw [hnone] at hh; cases hh⟩

theorem nodeOk_leafNull : NodeOk wcSHA1 keyCmp .leafNull := nodeOk_of_cachedHash_none (by simp) rfl

theorem nodeOk_leafBool (b : Bool) : NodeOk wcSHA1 keyCmp (.leafBool b) :=
  nodeOk_of_cachedHash_none (by simp) rfl

theorem nodeOk_leafNumber (d : DoubleBits) : NodeOk wcSHA1 keyCmp (.leafNumber d none) :=
  nodeOk_of_cachedHash_none (by simp) rfl

theorem nodeOk_leafString (s : Bytes) : NodeOk wcSHA1 keyCmp (.leafString s none) :=
  nodeOk_of_cachedHash_none (by simp) rfl

mutual

/-- The node with every flag cleared. -/
def uncached : Treenode → Treenode
  | .leafNull => .leafNull
  | .leafBool b => .leafBool b
  | .leafNumber d _ => .leafNumber d none
  | .leafString s _ => .leafString s none
  | .internal children _ => .internal (uncachedChildren children) none

def uncachedChildren : Children → Children
  | .nil => .nil
  | .node l k n r h => .node (uncachedChildren l) k (uncached n) (uncachedChildren r) h

end

variable (wcSHA1) in
mutual

/-- The hash from scratch is what `treenode_hash_get` computes when no flag is
set. -/
theorem treenodeHashGet_uncached : ∀ n : Treenode,
    (treenodeHashGet wcSHA1 (uncached n)).2 = scratchHash wcSHA1 n
  | .leafNull => rfl
  | .leafBool _ => rfl
  | .leafNumber _ _ => rfl
  | .leafString _ _ => rfl
  | .internal children _ => by
      show some (textHash wcSHA1 (hashChildren wcSHA1 (uncachedChildren children)).2) = _
      rw [hashChildren_uncached children, scratchHash]

theorem hashChildren_uncached : ∀ t : Children,
    (hashChildren wcSHA1 (uncachedChildren t)).2 = childrenText wcSHA1 t
  | .nil => rfl
  | .node l k n r h => by
      rw [uncachedChildren, hashChildren, childrenText, ← hashChildren_uncached l,
        ← hashChildren_uncached r, ← treenodeHashGet_uncached n]

end

mutual

/-- **`treenode_hash_get` returns the hash of the data** when the flags are
right, and leaves them right. -/
theorem treenodeHashGet_spec : ∀ n : Treenode, n.Forall (NodeOk wcSHA1 keyCmp) →
    (treenodeHashGet wcSHA1 n).2 = scratchHash wcSHA1 n ∧
      scratchHash wcSHA1 (treenodeHashGet wcSHA1 n).1 = scratchHash wcSHA1 n ∧
      (treenodeHashGet wcSHA1 n).1.Forall (NodeOk wcSHA1 keyCmp)
  | .leafNull, h => ⟨rfl, rfl, h⟩
  | .leafBool _, h => ⟨rfl, rfl, h⟩
  | .leafNumber d none, _ =>
      ⟨rfl, rfl, ⟨(fun _ _ heq => by cases heq), fun _ hh => hh⟩⟩
  | .leafString s none, _ =>
      ⟨rfl, rfl, ⟨(fun _ _ heq => by cases heq), fun _ hh => hh⟩⟩
  | .leafNumber _ (some _), h => ⟨(h.self.cached _ rfl).symm, rfl, h⟩
  | .leafString _ (some _), h => ⟨(h.self.cached _ rfl).symm, rfl, h⟩
  | .internal _ (some _), h => ⟨(h.self.cached _ rfl).symm, rfl, h⟩
  | .internal children none, h => by
      obtain ⟨htext, hsame, hkeys, hall⟩ := hashChildren_spec children h.childrenOk.all
      have hscratch : ∀ hash, scratchHash wcSHA1 (.internal (hashChildren wcSHA1 children).1 hash) =
          scratchHash wcSHA1 (.internal children none) := by
        intro hash
        rw [scratchHash, scratchHash, hsame]
      refine ⟨?_, hscratch _, ?_⟩
      · show some (textHash wcSHA1 (hashChildren wcSHA1 children).2) = _
        rw [htext, scratchHash]
      rw [treenodeHashGet, Treenode.Forall, childrenForall_iff]
      refine ⟨⟨?_, fun x hx => ?_⟩, hall⟩
      · rintro t hash ⟨⟩
        exact h.childrenOk.ordered.of_keys hkeys
      · rw [hscratch, scratchHash, ← htext]
        exact hx

theorem hashChildren_spec : ∀ t : Children, (∀ e ∈ t.toList, e.2.Forall (NodeOk wcSHA1 keyCmp)) →
    (hashChildren wcSHA1 t).2 = childrenText wcSHA1 t ∧
      childrenText wcSHA1 (hashChildren wcSHA1 t).1 = childrenText wcSHA1 t ∧
      (hashChildren wcSHA1 t).1.toList.map Prod.fst = t.toList.map Prod.fst ∧
      ∀ e ∈ (hashChildren wcSHA1 t).1.toList, e.2.Forall (NodeOk wcSHA1 keyCmp)
  | .nil, _ => ⟨rfl, rfl, rfl, by simp [hashChildren]⟩
  | .node l k n r height, h => by
      rw [AvlTree.toList_node, List.forall_mem_append, List.forall_mem_cons] at h
      obtain ⟨htextl, hsamel, hkeysl, halll⟩ := hashChildren_spec l h.1
      obtain ⟨hget, hsame, hall⟩ := treenodeHashGet_spec n h.2.1
      obtain ⟨htextr, hsamer, hkeysr, hallr⟩ := hashChildren_spec r h.2.2
      refine ⟨?_, ?_, ?_, ?_⟩
      · rw [hashChildren, childrenText, ← htextl, ← htextr, ← hget]
      · rw [hashChildren, childrenText, childrenText, hsamel, hsamer, hsame]
      · simp [hashChildren, hkeysl, hkeysr]
      · rw [hashChildren, AvlTree.toList_node, List.forall_mem_append, List.forall_mem_cons]
        exact ⟨halll, hall, hallr⟩

end

/-! ### Writes -/

variable [TransCmp keyCmp] {t : Children}

omit [TransCmp keyCmp] in
theorem childrenOk_nil : ChildrenOk wcSHA1 keyCmp .nil := ⟨AvlTree.ordered_nil, by simp⟩

theorem ChildrenOk.addNew (h : ChildrenOk wcSHA1 keyCmp t) (key : Key) {n : Treenode}
    (hn : n.Forall (NodeOk wcSHA1 keyCmp)) :
    ChildrenOk wcSHA1 keyCmp (internalAddNew keyCmp key n t) := by
  refine ⟨ordered_internalAddNew h.ordered key n, fun e he => ?_⟩
  rcases mem_of_mem_internalAddNew he with rfl | he
  · exact hn
  · exact h.all e he

theorem ChildrenOk.remove (h : ChildrenOk wcSHA1 keyCmp t) (key : Key) :
    ChildrenOk wcSHA1 keyCmp (avlRemove keyCmp key t) := by
  refine ⟨ordered_avlRemove h.ordered key, fun e he => ?_⟩
  rw [toList_avlRemove h.ordered] at he
  exact h.all e (List.mem_of_mem_filter he)

theorem ChildrenOk.modify (h : ChildrenOk wcSHA1 keyCmp t) (key : Key)
    {f : Treenode → Treenode} (hf : ∀ e ∈ t.toList, keyCmp key e.1 = .eq →
      (f e.2).Forall (NodeOk wcSHA1 keyCmp)) :
    ChildrenOk wcSHA1 keyCmp (avlModify keyCmp key f t) := by
  refine ⟨ordered_avlModify h.ordered key f, fun e he => ?_⟩
  rw [toList_avlModify h.ordered, List.mem_map] at he
  obtain ⟨e', he', rfl⟩ := he
  split
  next heq => exact hf e' he' heq
  next => exact h.all e' he'

set_option linter.unusedSectionVars false in
mutual

theorem dataCacheSetR_ok : ∀ (x : Json) (key : Key) (t : Children), ChildrenOk wcSHA1 keyCmp t →
    ChildrenOk wcSHA1 keyCmp (dataCacheSetR keyCmp key t x)
  | .array elements, key, _, h =>
      h.addNew key (forall_internal_none_iff.mpr (setElements_ok elements 0 _ childrenOk_nil))
  | .object members, key, _, h =>
      h.addNew key (forall_internal_none_iff.mpr (setMembers_ok members _ childrenOk_nil))
  | .boolean b, key, _, h => h.addNew key (nodeOk_leafBool b)
  | .double d, key, _, h => h.addNew key (nodeOk_leafNumber d)
  | .int i, key, _, h => h.addNew key (nodeOk_leafNumber (intToDouble i.toInt))
  | .null, key, _, h => h.remove key
  | .string s, key, _, h => h.addNew key (nodeOk_leafString s)

theorem setElements_ok : ∀ (elements : List Json) (i : ℕ) (t : Children),
    ChildrenOk wcSHA1 keyCmp t → ChildrenOk wcSHA1 keyCmp (setElements keyCmp i t elements)
  | [], _, _, h => h
  | x :: elements, i, _, h =>
      setElements_ok elements (i + 1) _ (dataCacheSetR_ok x (sidx i) _ h)

theorem setMembers_ok : ∀ (members : List (Key × Json)) (t : Children),
    ChildrenOk wcSHA1 keyCmp t → ChildrenOk wcSHA1 keyCmp (setMembers keyCmp t members)
  | [], _, h => h
  | (key, x) :: members, _, h => setMembers_ok members _ (dataCacheSetR_ok x key _ h)

end

theorem dataCacheSetRoot_ok (x : Json) :
    (dataCacheSetRoot keyCmp x).Forall (NodeOk wcSHA1 keyCmp) := by
  cases x with
  | array elements =>
      exact forall_internal_none_iff.mpr (setElements_ok elements 0 _ childrenOk_nil)
  | object members => exact forall_internal_none_iff.mpr (setMembers_ok members _ childrenOk_nil)
  | null => exact nodeOk_leafNull
  | boolean b => exact nodeOk_leafBool b
  | double d => exact nodeOk_leafNumber d
  | int i => exact nodeOk_leafNumber _
  | string s => exact nodeOk_leafString s

/-! ### Flags along a path -/

/-- The nodes along the path are internal as far as it goes, and none of them
has its flag set. -/
def Unflagged (keyCmp : Key → Key → Ordering) : Path → Treenode → Prop
  | [], n => n.cachedHash = none
  | key :: path, .internal children hash =>
      hash = none ∧ ∀ n, avlFind keyCmp key children = some n → Unflagged keyCmp path n
  | _ :: _, _ => True

theorem avlFind_of_mem_of_eq [LawfulEqCmp keyCmp] (ht : t.Ordered keyCmp) {key : Key}
    {e : Key × Treenode} (he : e ∈ t.toList) (heq : keyCmp key e.1 = .eq) :
    avlFind keyCmp key t = some e.2 := by
  obtain rfl := LawfulEqCmp.compare_eq_iff_eq.mp heq
  exact (avlFind_eq_some_iff ht).mpr he

/-- A write at the end of a path without flags leaves every cached hash right. -/
theorem updateNode_ok [LawfulEqCmp keyCmp] {f : Treenode → Treenode}
    (hf : ∀ n, n.Forall (NodeOk wcSHA1 keyCmp) → n.cachedHash = none →
      (f n).Forall (NodeOk wcSHA1 keyCmp)) (path : Path) :
    ∀ n : Treenode, Unflagged keyCmp path n → n.Forall (NodeOk wcSHA1 keyCmp) →
      (updateNode keyCmp f path n).Forall (NodeOk wcSHA1 keyCmp) := by
  induction path with
  | nil => exact fun n hflag hn => hf n hn hflag
  | cons key path ih =>
      intro n hflag hn
      cases n with
      | internal children hash =>
          obtain ⟨rfl, hbelow⟩ := hflag
          have hc := hn.childrenOk
          refine forall_internal_none_iff.mpr (hc.modify key fun e he heq => ?_)
          exact ih e.2 (hbelow e.2 (avlFind_of_mem_of_eq hc.ordered he heq)) (hc.all e he)
      | _ => exact hn

theorem mkpathFrom_ok [LawfulEqCmp keyCmp] (path : Path) :
    ∀ t : Children, ChildrenOk wcSHA1 keyCmp t →
      (mkpathFrom keyCmp true false path t none).Forall (NodeOk wcSHA1 keyCmp) ∧
        Unflagged keyCmp path (mkpathFrom keyCmp true false path t none) := by
  induction path with
  | nil => exact fun t h => ⟨forall_internal_none_iff.mpr h, rfl⟩
  | cons key path ih =>
      intro t h
      have hnew := ih .nil childrenOk_nil
      rw [mkpathFrom]
      cases hfind : avlFind keyCmp key t with
      | none =>
          refine ⟨forall_internal_none_iff.mpr (h.addNew key hnew.1), rfl, fun n hn => ?_⟩
          rw [avlFind_internalAddNew h.ordered _ hfind, if_pos rfl] at hn
          exact Option.some.inj hn ▸ hnew.2
      | some cur =>
          have hremoved : avlFind keyCmp key (avlRemove keyCmp key t) = none := by
            rw [avlFind_avlRemove h.ordered, if_pos ReflCmp.compare_self]
          have hmake : (Treenode.internal (internalAddNew keyCmp key
                (mkpathFrom keyCmp true false path .nil none) (avlRemove keyCmp key t)) none).Forall
                (NodeOk wcSHA1 keyCmp) ∧
              Unflagged keyCmp (key :: path) (.internal (internalAddNew keyCmp key
                (mkpathFrom keyCmp true false path .nil none) (avlRemove keyCmp key t)) none) := by
            refine ⟨forall_internal_none_iff.mpr ((h.remove key).addNew key hnew.1), rfl,
              fun n hn => ?_⟩
            rw [avlFind_internalAddNew (h.remove key).ordered _ hremoved, if_pos rfl] at hn
            exact Option.some.inj hn ▸ hnew.2
          cases cur with
          | internal sub subHash =>
              have hsub := ih sub
                (h.all _ ((avlFind_eq_some_iff h.ordered).mp hfind)).childrenOk
              refine ⟨forall_internal_none_iff.mpr (h.modify key fun _ _ _ => hsub.1), rfl,
                fun n hn => ?_⟩
              rw [avlFind_avlModify h.ordered, if_pos ReflCmp.compare_self, hfind] at hn
              exact Option.some.inj hn ▸ hsub.2
          | leafNull => exact hmake
          | leafBool _ => exact hmake
          | leafNumber _ _ => exact hmake
          | leafString _ _ => exact hmake

theorem dataCacheMkpathW_ok [LawfulEqCmp keyCmp] (path : Path) {root : Treenode}
    (h : root.Forall (NodeOk wcSHA1 keyCmp)) :
    (dataCacheMkpathW keyCmp path true false root).Forall (NodeOk wcSHA1 keyCmp) ∧
      Unflagged keyCmp path (dataCacheMkpathW keyCmp path true false root) := by
  cases root with
  | internal children hash => exact mkpathFrom_ok path children h.childrenOk
  | _ => exact mkpathFrom_ok path _ childrenOk_nil

/-! ### Operations -/

omit [TransCmp keyCmp] in
theorem mapChildren_ok {f : Children → Children}
    (hf : ∀ t, ChildrenOk wcSHA1 keyCmp t → ChildrenOk wcSHA1 keyCmp (f t)) (n : Treenode)
    (hn : n.Forall (NodeOk wcSHA1 keyCmp)) (hflag : n.cachedHash = none) :
    (n.mapChildren f).Forall (NodeOk wcSHA1 keyCmp) := by
  cases n with
  | internal t hash =>
      obtain rfl : hash = none := hflag
      exact forall_internal_none_iff.mpr (hf t hn.childrenOk)
  | _ => exact hn

theorem setUnderParent_ok [LawfulEqCmp keyCmp] (path : Path) {set : Key → Children → Children}
    (hset : ∀ key t, ChildrenOk wcSHA1 keyCmp t → ChildrenOk wcSHA1 keyCmp (set key t))
    {root : Treenode} (h : root.Forall (NodeOk wcSHA1 keyCmp)) :
    (setUnderParent keyCmp path set root).Forall (NodeOk wcSHA1 keyCmp) := by
  obtain ⟨hmk, hflag⟩ := dataCacheMkpathW_ok path.dropLast h
  exact updateNode_ok (mapChildren_ok fun t ht => hset _ _ (ht.remove _)) _ _ hflag hmk

theorem dataCacheSetEx_ok [LawfulEqCmp keyCmp] (path : Path) (x : Json) {root : Treenode}
    (h : root.Forall (NodeOk wcSHA1 keyCmp)) :
    (dataCacheSetEx keyCmp path x root).Forall (NodeOk wcSHA1 keyCmp) := by
  rw [dataCacheSetEx]
  split
  · exact dataCacheSetRoot_ok x
  · exact setUnderParent_ok path (fun key t ht => dataCacheSetR_ok x key t ht) h

theorem dataCacheSetLeaf_ok [LawfulEqCmp keyCmp] (path : Bytes) (leaf : LeafValue)
    {root : Treenode} (h : root.Forall (NodeOk wcSHA1 keyCmp)) :
    (dataCacheSetLeaf keyCmp path leaf root).Forall (NodeOk wcSHA1 keyCmp) := by
  have hleaf : leaf.node.Forall (NodeOk wcSHA1 keyCmp) := by
    cases leaf with
    | null => exact nodeOk_leafNull
    | bool b => exact nodeOk_leafBool b
    | number d => exact nodeOk_leafNumber d
    | string s => exact nodeOk_leafString s
  simp only [dataCacheSetLeaf]
  split
  · exact hleaf
  · exact setUnderParent_ok _ (fun key t ht => ht.addNew key hleaf) h

theorem dataCacheMerge_ok [LawfulEqCmp keyCmp] (path : Bytes) (x : Json) {root : Treenode}
    (h : root.Forall (NodeOk wcSHA1 keyCmp)) :
    (dataCacheMerge keyCmp path x root).Forall (NodeOk wcSHA1 keyCmp) := by
  cases x with
  | object members =>
      rw [dataCacheMerge]
      induction members generalizing root with
      | nil => exact h
      | cons m members ih => exact ih (dataCacheSetEx_ok _ m.2 h)
  | _ => exact h

theorem dataCacheMergeEx_ok [LawfulEqCmp keyCmp] {path : Path} {x : Json} {root root' : Treenode}
    (h : root.Forall (NodeOk wcSHA1 keyCmp))
    (hstep : dataCacheMergeEx keyCmp path x root = some root') :
    root'.Forall (NodeOk wcSHA1 keyCmp) := by
  cases x with
  | object members =>
      rw [dataCacheMergeEx] at hstep
      split at hstep
      · exact Option.some.inj hstep ▸ dataCacheSetRoot_ok _
      · obtain ⟨hmk, hflag⟩ := dataCacheMkpathW_ok path h
        refine Option.some.inj hstep ▸ updateNode_ok (mapChildren_ok fun t ht => ?_) _ _ hflag hmk
        clear hmk hflag hstep
        induction members generalizing t with
        | nil => exact ht
        | cons m members ih => exact ih _ (dataCacheSetR_ok m.2 m.1 _ (ht.remove m.1))
  | _ => cases hstep

omit [TransCmp keyCmp] in
theorem childrenText_avlModify {f : Treenode → Treenode} (key : Key) :
    ∀ t : Children, (∀ e ∈ t.toList, scratchHash wcSHA1 (f e.2) = scratchHash wcSHA1 e.2) →
      childrenText wcSHA1 (avlModify keyCmp key f t) = childrenText wcSHA1 t := by
  intro t
  induction t with
  | nil => exact fun _ => rfl
  | node l k n r h ihl ihr =>
      intro hf
      rw [AvlTree.toList_node, List.forall_mem_append, List.forall_mem_cons] at hf
      rw [avlModify]
      cases keyCmp key k with
      | lt => simp only [childrenText, ihl hf.1]
      | gt => simp only [childrenText, ihr hf.2.2]
      | eq => simp only [childrenText, hf.2.1]

/-- Hashing a node caches hashes, and neither changes the data nor makes a
cached hash wrong. -/
theorem updateNode_hashGet_ok (path : Path) : ∀ n : Treenode,
    n.Forall (NodeOk wcSHA1 keyCmp) →
      (updateNode keyCmp (fun n => (treenodeHashGet wcSHA1 n).1) path n).Forall
          (NodeOk wcSHA1 keyCmp) ∧
        scratchHash wcSHA1 (updateNode keyCmp (fun n => (treenodeHashGet wcSHA1 n).1) path n) =
          scratchHash wcSHA1 n := by
  induction path with
  | nil =>
      intro n hn
      obtain ⟨-, hsame, hok⟩ := treenodeHashGet_spec n hn
      exact ⟨hok, hsame⟩
  | cons key path ih =>
      intro n hn
      cases n with
      | internal t hash =>
          have hc := hn.childrenOk
          have hc' := hc.modify
            (f := updateNode keyCmp (fun n => (treenodeHashGet wcSHA1 n).1) path)
            key fun e he _ => (ih e.2 (hc.all e he)).1
          have htext : childrenText wcSHA1 (avlModify keyCmp key
              (updateNode keyCmp (fun n => (treenodeHashGet wcSHA1 n).1) path) t) =
                childrenText wcSHA1 t :=
            childrenText_avlModify key t fun e he => (ih e.2 (hc.all e he)).2
          have hscratch : scratchHash wcSHA1 (updateNode keyCmp
              (fun n => (treenodeHashGet wcSHA1 n).1) (key :: path) (.internal t hash)) =
                scratchHash wcSHA1 (.internal t hash) := by
            rw [updateNode, scratchHash, htext, scratchHash]
          refine ⟨⟨⟨?_, fun h hh => ?_⟩, childrenForall_iff.mpr hc'.all⟩, hscratch⟩
          · rintro t' hash' ⟨⟩
            exact hc'.ordered
          · exact hscratch.trans (hn.self.cached h hh)
      | _ => exact ⟨hn, rfl⟩

end Hash

/-! ### Runs -/

/-- A call that writes to the cache, or `treenode_hash_get` on the node at a
path. -/
inductive CacheOp where
  | set (path : Bytes) (json : Json)
  | setLeaf (path : Bytes) (leaf : LeafValue)
  | merge (path : Bytes) (json : Json)
  | mergeEx (path : Path) (json : Json)
  | mkpath (path : Bytes)
  | hashGet (path : Path)

def cacheStep (wcSHA1 : SHA1) (keyCmp : Key → Key → Ordering) (root : Treenode) :
    CacheOp → Option Treenode
  | .set path json => some (dataCacheSet keyCmp path json root)
  | .setLeaf path leaf => some (dataCacheSetLeaf keyCmp path leaf root)
  | .merge path json => some (dataCacheMerge keyCmp path json root)
  | .mergeEx path json => dataCacheMergeEx keyCmp path json root
  | .mkpath path => some (dataCacheMkpath keyCmp path root)
  | .hashGet path => some (updateNode keyCmp (fun n => (treenodeHashGet wcSHA1 n).1) path root)

section Runs

variable {wcSHA1 : SHA1} {keyCmp : Key → Key → Ordering} [TransCmp keyCmp] [LawfulEqCmp keyCmp]

theorem cacheStep_ok {root root' : Treenode} (h : root.Forall (NodeOk wcSHA1 keyCmp))
    {op : CacheOp} (hstep : cacheStep wcSHA1 keyCmp root op = some root') :
    root'.Forall (NodeOk wcSHA1 keyCmp) := by
  cases op with
  | set path json => exact Option.some.inj hstep ▸ dataCacheSetEx_ok _ json h
  | setLeaf path leaf => exact Option.some.inj hstep ▸ dataCacheSetLeaf_ok path leaf h
  | merge path json => exact Option.some.inj hstep ▸ dataCacheMerge_ok path json h
  | mergeEx path json => exact dataCacheMergeEx_ok h hstep
  | mkpath path => exact Option.some.inj hstep ▸ (dataCacheMkpathW_ok _ h).1
  | hashGet path => exact Option.some.inj hstep ▸ (updateNode_hashGet_ok path root h).1

theorem reachable_cache_ok {root : Treenode}
    (run : Reach (cacheStep wcSHA1 keyCmp) (fun _ _ => True) dataCacheNew root) :
    root.Forall (NodeOk wcSHA1 keyCmp) :=
  run.invariant nodeOk_leafNull fun _ _ _ h _ hstep => cacheStep_ok h hstep

/-- **Cached hashes are right.** In every cache that a run reaches, every node
whose flag is set stores the hash computed from scratch, and
`treenode_hash_get` returns that hash on every node. -/
theorem cached_hashes_right {root : Treenode}
    (run : Reach (cacheStep wcSHA1 keyCmp) (fun _ _ => True) dataCacheNew root) :
    root.Forall fun n => (∀ h, n.cachedHash = some h → scratchHash wcSHA1 n = some h) ∧
      (treenodeHashGet wcSHA1 n).2 = scratchHash wcSHA1 n :=
  ((reachable_cache_ok run).subtrees).imp (fun n h => ⟨h.self.cached, (treenodeHashGet_spec n h).1⟩)

end Runs

/-- SHA-1 of `:a:` followed by the hash of `true`, the one text that the run
below hashes. -/
def sampleSHA1 : SHA1 := fun _ i =>
  [106, 123, 60, 138, 160, 64, 140, 137, 248, 149, 94, 204, 122, 187, 135, 223, 179, 33, 186,
    5].getD i.val 0

theorem cached_hashes_right_true_at_a :
    ∃ root, runSteps (cacheStep sampleSHA1 strcmp) (fun _ _ => True) dataCacheNew
        [.set [47, 97] (.boolean true), .hashGet [], .set [47, 97] .null,
          .setLeaf [47, 97] (.bool true)] = some root ∧
      root.Forall fun n => (∀ h, n.cachedHash = some h → scratchHash sampleSHA1 n = some h) ∧
        (treenodeHashGet sampleSHA1 n).2 = scratchHash sampleSHA1 n := by
  have hrun : ∃ root, runSteps (cacheStep sampleSHA1 strcmp) (fun _ _ => True) dataCacheNew
      [.set [47, 97] (.boolean true), .hashGet [], .set [47, 97] .null,
        .setLeaf [47, 97] (.bool true)] = some root := ⟨_, rfl⟩
  obtain ⟨root, hroot⟩ := hrun
  exact ⟨root, hroot, cached_hashes_right (Reach.of_runSteps .start hroot)⟩

end WebcomSdk.Cache

import WebcomSdk.Cache.CacheReads
import WebcomSdk.Datasync.PathKeys

/-!
The cache under two comparators that agree on the keys that occur. Every call
then does the same under both, so a run under `wc_datasync_key_cmp` whose keys
are strictly ordered is a run under a total order.
-/

namespace WebcomSdk.Cache

open WebcomSdk.Lib WebcomSdk.Collection WebcomSdk.Datasync Std

/-! ### Keys that occur -/

mutual

/-- `P` holds of the members of the document and of every document in it. -/
def Json.Everywhere (P : List (Key × Json) → Prop) : Json → Prop
  | .array elements => P (indexed 0 elements) ∧ elementsEverywhere P elements
  | .object members => P members ∧ membersEverywhere P members
  | _ => P []

def elementsEverywhere (P : List (Key × Json) → Prop) : List Json → Prop
  | [] => True
  | x :: elements => x.Everywhere P ∧ elementsEverywhere P elements

def membersEverywhere (P : List (Key × Json) → Prop) : List (Key × Json) → Prop
  | [] => True
  | (_, x) :: members => x.Everywhere P ∧ membersEverywhere P members

end

section Everywhere

variable {P : List (Key × Json) → Prop}

theorem elementsEverywhere_iff {elements : List Json} :
    elementsEverywhere P elements ↔ ∀ x ∈ elements, x.Everywhere P := by
  induction elements with
  | nil => simp [elementsEverywhere]
  | cons x elements ih => rw [elementsEverywhere, ih, List.forall_mem_cons]

theorem membersEverywhere_iff {members : List (Key × Json)} :
    membersEverywhere P members ↔ ∀ m ∈ members, m.2.Everywhere P := by
  induction members with
  | nil => simp [membersEverywhere]
  | cons m members ih => rw [membersEverywhere, ih, List.forall_mem_cons]

theorem everywhere_iff {x : Json} :
    x.Everywhere P ↔ P x.members ∧ ∀ m ∈ x.members, m.2.Everywhere P := by
  cases x with
  | array elements =>
      rw [Json.Everywhere, elementsEverywhere_iff]
      exact and_congr_right fun _ => (forall_mem_indexed (P := fun x => x.Everywhere P)).symm
  | object members => rw [Json.Everywhere, membersEverywhere_iff, Json.members]
  | _ => simp [Json.Everywhere, Json.members]

end Everywhere

/-- The names of the document, at every level, are in `S`. -/
def Json.KeysIn (S : Set Key) (x : Json) : Prop :=
  x.Everywhere fun members => ∀ m ∈ members, m.1 ∈ S

/-- The keys of the children, at every level, are in `S`. -/
def Treenode.KeysIn (S : Set Key) (n : Treenode) : Prop :=
  n.Forall fun n => ∀ t hash, n = .internal t hash → AvlTree.KeysIn S t

/-- The keys of a level and of all levels below it are in `S`. -/
structure ChildrenIn (S : Set Key) (t : Children) : Prop where
  keys : AvlTree.KeysIn S t
  all : ∀ e ∈ t.toList, e.2.KeysIn S

variable {S : Set Key} {t : Children}

theorem keysIn_internal_iff {hash : Option TreenodeHash} :
    (Treenode.internal t hash).KeysIn S ↔ ChildrenIn S t := by
  rw [Treenode.KeysIn, Treenode.Forall, childrenForall_iff]
  constructor
  · rintro ⟨hn, hall⟩
    exact ⟨hn t hash rfl, hall⟩
  · rintro ⟨hkeys, hall⟩
    refine ⟨?_, hall⟩
    rintro t hash ⟨⟩
    exact hkeys

theorem keysIn_leaf {n : Treenode} (hn : ∀ t hash, n ≠ .internal t hash) : n.KeysIn S := by
  cases n with
  | internal t hash => exact absurd rfl (hn t hash)
  | _ => exact fun t hash h => absurd h (by simp)

theorem childrenIn_nil : ChildrenIn S .nil := by
  constructor <;> rintro e ⟨⟩

theorem keysIn_internalAddNew {cmp : Key → Key → Ordering} (h : AvlTree.KeysIn S t) {key : Key}
    (hkey : key ∈ S) (n : Treenode) : AvlTree.KeysIn S (internalAddNew cmp key n t) := by
  intro e he
  rcases mem_of_mem_internalAddNew he with rfl | he
  · exact hkey
  · exact h e he

theorem ChildrenIn.addNew {cmp : Key → Key → Ordering} (h : ChildrenIn S t) {key : Key}
    (hkey : key ∈ S) {n : Treenode} (hn : n.KeysIn S) :
    ChildrenIn S (internalAddNew cmp key n t) := by
  refine ⟨keysIn_internalAddNew h.keys hkey n, fun e he => ?_⟩
  rcases mem_of_mem_internalAddNew he with rfl | he
  · exact hn
  · exact h.all e he

theorem ChildrenIn.remove (cmp : Key → Key → Ordering) (h : ChildrenIn S t) (key : Key) :
    ChildrenIn S (avlRemove cmp key t) :=
  ⟨h.keys.remove, fun e he => h.all e (mem_of_mem_avlRemove he)⟩

theorem ChildrenIn.modify {cmp : Key → Key → Ordering} (h : ChildrenIn S t) (key : Key)
    {f : Treenode → Treenode} (hf : ∀ n : Treenode, n.KeysIn S → (f n).KeysIn S) :
    ChildrenIn S (avlModify cmp key f t) := by
  refine ⟨h.keys.modify f, fun e he => ?_⟩
  rcases mem_of_mem_avlModify he with he | ⟨v, hv, hfv⟩
  · exact h.all e he
  · exact hfv ▸ hf v (h.all (e.1, v) hv)

theorem ChildrenIn.find {cmp : Key → Key → Ordering} (h : ChildrenIn S t) {key : Key}
    {n : Treenode} (hn : avlFind cmp key t = some n) : n.KeysIn S := by
  obtain ⟨e, he, rfl⟩ := Option.map_eq_some_iff.mp hn
  exact h.all e (mem_of_avlGet he)

/-! ### The same calls -/

section Agree

variable {cmp cmp' : Key → Key → Ordering} (hagree : AgreeOn S cmp cmp')

include hagree

theorem internalAddNew_agree {key : Key} (hkey : key ∈ S) (ht : AvlTree.KeysIn S t)
    (n : Treenode) : internalAddNew cmp key n t = internalAddNew cmp' key n t := by
  rw [internalAddNew, internalAddNew, avlInsert_agree hagree hkey ht]

theorem dataCacheGetR_agree {path : Path} (hpath : PathIn S path) : ∀ n : Treenode,
    n.KeysIn S → dataCacheGetR cmp path n = dataCacheGetR cmp' path n := by
  induction path with
  | nil => exact fun n _ => rfl
  | cons key path ih =>
      obtain ⟨hkey, hpath⟩ := List.forall_mem_cons.mp hpath
      intro n hn
      cases n with
      | internal t hash =>
          have ht := keysIn_internal_iff.mp hn
          rw [dataCacheGetR_cons, dataCacheGetR_cons, ← avlFind_agree hagree hkey ht.keys]
          cases hfind : avlFind cmp key t with
          | none => rfl
          | some child => exact ih hpath child (ht.find hfind)
      | _ => rfl

omit hagree in
theorem keysIn_get {path : Path} {root n : Treenode} (h : root.KeysIn S)
    (hn : dataCacheGetR cmp path root = some n) : n.KeysIn S := by
  induction path generalizing root with
  | nil => exact Option.some.inj hn ▸ h
  | cons key path ih =>
      cases root with
      | internal t hash =>
          rw [dataCacheGetR_cons] at hn
          obtain ⟨child, hchild, hn⟩ := Option.bind_eq_some_iff.mp hn
          exact ih ((keysIn_internal_iff.mp h).find hchild) hn
      | _ => cases hn

theorem mkpathFrom_agree {path : Path} (hpath : PathIn S path) :
    ∀ t : Children, ChildrenIn S t →
      mkpathFrom cmp true false path t none = mkpathFrom cmp' true false path t none ∧
        (mkpathFrom cmp true false path t none).KeysIn S := by
  induction path with
  | nil => exact fun t ht => ⟨rfl, keysIn_internal_iff.mpr ht⟩
  | cons key path ih =>
      obtain ⟨hkey, hpath⟩ := List.forall_mem_cons.mp hpath
      intro t ht
      obtain ⟨hnew, hnewIn⟩ := ih hpath .nil childrenIn_nil
      rw [mkpathFrom, mkpathFrom, ← avlFind_agree hagree hkey ht.keys]
      cases hfind : avlFind cmp key t with
      | none =>
          refine ⟨?_, keysIn_internal_iff.mpr (ht.addNew hkey hnewIn)⟩
          show Treenode.internal (internalAddNew cmp key _ t) none = _
          rw [internalAddNew_agree hagree hkey ht.keys, hnew]
      | some cur =>
          have hmake : Treenode.internal (internalAddNew cmp key
                (mkpathFrom cmp true false path .nil none) (avlRemove cmp key t)) none =
              .internal (internalAddNew cmp' key
                (mkpathFrom cmp' true false path .nil none) (avlRemove cmp' key t)) none ∧
              (Treenode.internal (internalAddNew cmp key
                (mkpathFrom cmp true false path .nil none) (avlRemove cmp key t)) none).KeysIn
                  S := by
            refine ⟨?_, keysIn_internal_iff.mpr ((ht.remove cmp key).addNew hkey hnewIn)⟩
            rw [internalAddNew_agree hagree hkey ht.keys.remove, hnew,
              avlRemove_agree hagree hkey ht.keys]
          cases cur with
          | internal sub subHash =>
              obtain ⟨hsub, hsubIn⟩ := ih hpath sub (keysIn_internal_iff.mp (ht.find hfind))
              refine ⟨?_, keysIn_internal_iff.mpr (ht.modify key fun _ _ => hsubIn)⟩
              show Treenode.internal (avlModify cmp key
                (fun _ => mkpathFrom cmp true false path sub none) t) none = _
              rw [avlModify_agree hagree hkey ht.keys, hsub]
              rfl
          | leafNull => exact hmake
          | leafBool _ => exact hmake
          | leafNumber _ _ => exact hmake
          | leafString _ _ => exact hmake

theorem dataCacheMkpathW_agree {path : Path} (hpath : PathIn S path) {root : Treenode}
    (hroot : root.KeysIn S) :
    dataCacheMkpathW cmp path true false root = dataCacheMkpathW cmp' path true false root ∧
      (dataCacheMkpathW cmp path true false root).KeysIn S := by
  cases root with
  | internal t hash => exact mkpathFrom_agree hagree hpath t (keysIn_internal_iff.mp hroot)
  | _ => exact mkpathFrom_agree hagree hpath .nil childrenIn_nil

theorem updateNode_agree {f f' : Treenode → Treenode}
    (hf : ∀ n, n.KeysIn S → f n = f' n ∧ (f n).KeysIn S) {path : Path} (hpath : PathIn S path) :
    ∀ n : Treenode, n.KeysIn S →
      updateNode cmp f path n = updateNode cmp' f' path n ∧ (updateNode cmp f path n).KeysIn S := by
  induction path with
  | nil => exact hf
  | cons key path ih =>
      obtain ⟨hkey, hpath⟩ := List.forall_mem_cons.mp hpath
      intro n hn
      cases n with
      | internal t hash =>
          have ht := keysIn_internal_iff.mp hn
          refine ⟨?_, keysIn_internal_iff.mpr (ht.modify key fun n hn => (ih hpath n hn).2)⟩
          rw [updateNode, updateNode, ← avlModify_agree hagree hkey ht.keys,
            avlModify_congr t fun v hv => (ih hpath v (ht.find hv)).1]
      | _ => exact ⟨rfl, hn⟩

/-- Storing looks at the keys of its level only. -/
theorem store_level_agree {key : Key} (hkey : key ∈ S) (ht : AvlTree.KeysIn S t)
    (o : Option Treenode) :
    store cmp key o t = store cmp' key o t ∧ AvlTree.KeysIn S (store cmp key o t) := by
  cases o with
  | none => exact ⟨avlRemove_agree hagree hkey ht, ht.remove⟩
  | some n => exact ⟨internalAddNew_agree hagree hkey ht n, keysIn_internalAddNew ht hkey n⟩

theorem storeAll_level_agree {members : List (Key × Json)} (hnames : ∀ m ∈ members, m.1 ∈ S)
    (g : Json → Option Treenode) : ∀ t : Children, AvlTree.KeysIn S t →
      storeAll cmp g t members = storeAll cmp' g t members ∧
        AvlTree.KeysIn S (storeAll cmp g t members) := by
  induction members with
  | nil => exact fun t ht => ⟨rfl, ht⟩
  | cons m members ih =>
      rw [List.forall_mem_cons] at hnames
      intro t ht
      obtain ⟨hsame, hin⟩ := store_level_agree hagree hnames.1 ht (g m.2)
      rw [storeAll, storeAll, List.foldl_cons, List.foldl_cons, ← hsame]
      exact ih hnames.2 _ hin

theorem store_agree {key : Key} (hkey : key ∈ S) {o : Option Treenode}
    (ho : ∀ n ∈ o, n.KeysIn S) (ht : ChildrenIn S t) :
    store cmp key o t = store cmp' key o t ∧ ChildrenIn S (store cmp key o t) := by
  refine ⟨(store_level_agree hagree hkey ht.keys o).1, ?_⟩
  cases o with
  | none => exact ht.remove cmp key
  | some n => exact ht.addNew hkey (ho n rfl)

omit hagree in
theorem setChild_agree {x : Json} (h : dataCacheSetRoot cmp x = dataCacheSetRoot cmp' x ∧
    (dataCacheSetRoot cmp x).KeysIn S) :
    setChild cmp x = setChild cmp' x ∧ ∀ n ∈ setChild cmp x, n.KeysIn S := by
  cases x with
  | null => exact ⟨rfl, fun n hn => by cases hn⟩
  | _ => exact ⟨congrArg some h.1, fun n hn => Option.some.inj hn ▸ h.2⟩

theorem storeAll_agree {g g' : Json → Option Treenode} {members : List (Key × Json)}
    (hnames : ∀ m ∈ members, m.1 ∈ S)
    (hg : ∀ m ∈ members, g m.2 = g' m.2 ∧ ∀ n ∈ g m.2, n.KeysIn S) : ∀ t : Children,
      ChildrenIn S t → storeAll cmp g t members = storeAll cmp' g' t members ∧
        ChildrenIn S (storeAll cmp g t members) := by
  induction members with
  | nil => exact fun t ht => ⟨rfl, ht⟩
  | cons m members ih =>
      rw [List.forall_mem_cons] at hnames hg
      intro t ht
      obtain ⟨hsame, hin⟩ := store_agree hagree hnames.1 hg.1.2 ht
      rw [storeAll, storeAll, List.foldl_cons, List.foldl_cons, ← hg.1.1, ← hsame]
      exact ih hnames.2 hg.2 _ hin

/-- Two stores of the members of a level are the same when the values are. -/
theorem setRoot_level_agree {members : List (Key × Json)} (hnames : ∀ m ∈ members, m.1 ∈ S)
    (hvalues : ∀ m ∈ members, dataCacheSetRoot cmp m.2 = dataCacheSetRoot cmp' m.2 ∧
      (dataCacheSetRoot cmp m.2).KeysIn S) :
    Treenode.internal (storeAll cmp (setChild cmp) .nil members) none =
        .internal (storeAll cmp' (setChild cmp') .nil members) none ∧
      (Treenode.internal (storeAll cmp (setChild cmp) .nil members) none).KeysIn S := by
  have hchild : ∀ m ∈ members, setChild cmp m.2 = setChild cmp' m.2 ∧
      ∀ n ∈ setChild cmp m.2, n.KeysIn S := fun m hm => setChild_agree (hvalues m hm)
  obtain ⟨hsame, hin⟩ := storeAll_agree hagree hnames hchild .nil childrenIn_nil
  exact ⟨by rw [hsame], keysIn_internal_iff.mpr hin⟩

theorem dataCacheSetRoot_agree (x : Json) : x.KeysIn S →
    dataCacheSetRoot cmp x = dataCacheSetRoot cmp' x ∧ (dataCacheSetRoot cmp x).KeysIn S := by
  induction x using Json.induct with
  | harray elements ih =>
      intro hx
      obtain ⟨hnames, hvalues⟩ := everywhere_iff.mp hx
      rw [dataCacheSetRoot, dataCacheSetRoot, setElements_eq, setElements_eq]
      refine setRoot_level_agree hagree hnames fun m hm => ?_
      exact forall_mem_indexed (P := fun x => x.KeysIn S → dataCacheSetRoot cmp x =
        dataCacheSetRoot cmp' x ∧ (dataCacheSetRoot cmp x).KeysIn S).mpr ih m hm (hvalues m hm)
  | hobject members ih =>
      intro hx
      obtain ⟨hnames, hvalues⟩ := everywhere_iff.mp hx
      rw [dataCacheSetRoot, dataCacheSetRoot, setMembers_eq, setMembers_eq]
      exact setRoot_level_agree hagree hnames fun m hm => ih m hm (hvalues m hm)
  | _ => exact fun _ => ⟨rfl, keysIn_leaf (by simp [dataCacheSetRoot])⟩

theorem dataCacheSetR_agree {key : Key} (hkey : key ∈ S) {x : Json} (hx : x.KeysIn S)
    (ht : ChildrenIn S t) :
    dataCacheSetR cmp key t x = dataCacheSetR cmp' key t x ∧
      ChildrenIn S (dataCacheSetR cmp key t x) := by
  obtain ⟨hsame, hin⟩ := setChild_agree (dataCacheSetRoot_agree hagree x hx)
  rw [dataCacheSetR_eq, dataCacheSetR_eq, ← hsame]
  exact store_agree hagree hkey hin ht

theorem setUnderParent_agree {path : Path} (hpath : PathIn S path) (hne : path ≠ [])
    {set set' : Key → Children → Children}
    (hset : ∀ key ∈ S, ∀ t, ChildrenIn S t → set key t = set' key t ∧ ChildrenIn S (set key t))
    {root : Treenode} (hroot : root.KeysIn S) :
    setUnderParent cmp path set root = setUnderParent cmp' path set' root ∧
      (setUnderParent cmp path set root).KeysIn S := by
  have hlast : path.getLastD [] ∈ S := by
    rw [List.getLastD_eq_getLast?, List.getLast?_eq_some_getLast hne]
    exact hpath _ (List.getLast_mem hne)
  have hparent : PathIn S path.dropLast := fun part hpart =>
    hpath part (List.mem_of_mem_dropLast hpart)
  obtain ⟨hmk, hmkIn⟩ := dataCacheMkpathW_agree hagree hparent hroot
  rw [setUnderParent, setUnderParent, ← hmk]
  apply updateNode_agree hagree _ hparent _ hmkIn
  intro n hn
  cases n with
  | internal t hash =>
      have ht := keysIn_internal_iff.mp hn
      obtain ⟨hsame, hin⟩ := hset _ hlast _ (ht.remove cmp (path.getLastD []))
      refine ⟨?_, keysIn_internal_iff.mpr hin⟩
      show Treenode.internal (set _ (avlRemove cmp _ t)) hash =
        .internal (set' _ (avlRemove cmp' _ t)) hash
      rw [hsame, avlRemove_agree hagree hlast ht.keys]
  | _ => exact ⟨rfl, hn⟩

theorem dataCacheSetEx_agree {path : Path} (hpath : PathIn S path) {x : Json} (hx : x.KeysIn S)
    {root : Treenode} (hroot : root.KeysIn S) :
    dataCacheSetEx cmp path x root = dataCacheSetEx cmp' path x root ∧
      (dataCacheSetEx cmp path x root).KeysIn S := by
  rw [dataCacheSetEx, dataCacheSetEx]
  split
  · exact dataCacheSetRoot_agree hagree x hx
  next hne =>
    exact setUnderParent_agree hagree hpath hne
      (fun key hkey t ht => dataCacheSetR_agree hagree hkey hx ht) hroot

/-- What is stored is found at its path, whatever its own keys. -/
theorem get_dataCacheSetEx_agree {wcSHA1 : SHA1} [TransCmp cmp'] [LawfulEqCmp cmp'] {path : Path}
    (hpath : PathIn S path) (hne : path ≠ []) (x : Json) {root : Treenode}
    (hin : root.KeysIn S) (h : root.Forall (NodeOk wcSHA1 cmp')) :
    dataCacheGetR cmp path (dataCacheSetEx cmp path x root) = setChild cmp x := by
  have hsplit : path = path.dropLast ++ [path.getLastD []] := by
    rw [List.getLastD_eq_getLast?, List.getLast?_eq_some_getLast hne]
    exact (List.dropLast_append_getLast hne).symm
  obtain ⟨hparent, hlast⟩ : PathIn S path.dropLast ∧ path.getLastD [] ∈ S := by
    rw [hsplit] at hpath
    exact ⟨fun part hpart => hpath part (List.mem_append_left _ hpart), hpath _ (by simp)⟩
  obtain ⟨hmk, hmkIn⟩ := dataCacheMkpathW_agree hagree hparent hin
  obtain ⟨t, hget⟩ := get_dataCacheMkpathW_self path.dropLast h
  have ht := (forall_get (dataCacheMkpathW_ok path.dropLast h).1 hget).childrenOk
  rw [← hmk, ← dataCacheGetR_agree hagree hparent _ hmkIn] at hget
  have htIn : AvlTree.KeysIn S t :=
    (keysIn_internal_iff.mp (keysIn_get hmkIn hget)).keys
  obtain ⟨hstore, hstoreIn⟩ := store_level_agree hagree hlast htIn.remove (setChild cmp x)
  rw [dataCacheSetEx, if_neg hne, setUnderParent]
  nth_rewrite 1 [hsplit]
  rw [get_append, get_updateNode_self, hget]
  show (avlFind cmp _ (dataCacheSetR cmp _ (avlRemove cmp _ t) x)).bind (dataCacheGetR cmp []) = _
  rw [dataCacheSetR_eq, avlFind_agree hagree hlast hstoreIn, hstore,
    avlRemove_agree hagree hlast htIn, avlFind_store_self ht.ordered]
  cases setChild cmp x <;> rfl

theorem dataCacheSetLeaf_agree {path : Bytes} (hpath : PathIn S (wcDatasyncPathParse path))
    (leaf : LeafValue) {root : Treenode} (hroot : root.KeysIn S) :
    dataCacheSetLeaf cmp path leaf root = dataCacheSetLeaf cmp' path leaf root ∧
      (dataCacheSetLeaf cmp path leaf root).KeysIn S := by
  have hleaf : leaf.node.KeysIn S := keysIn_leaf (by cases leaf <;> simp [LeafValue.node])
  simp only [dataCacheSetLeaf]
  split
  · exact ⟨rfl, hleaf⟩
  next hne =>
    exact setUnderParent_agree hagree hpath hne (fun key hkey t ht =>
      ⟨internalAddNew_agree hagree hkey ht.keys _, ht.addNew hkey hleaf⟩) hroot

theorem dataCacheMerge_agree {path : Bytes} {members : List (Key × Json)}
    (hmembers : ∀ m ∈ members, PathIn S (wcDatasyncPathParse (mergePath path m.1)) ∧ m.2.KeysIn S)
    {root : Treenode} (hroot : root.KeysIn S) :
    dataCacheMerge cmp path (.object members) root =
        dataCacheMerge cmp' path (.object members) root ∧
      (dataCacheMerge cmp path (.object members) root).KeysIn S := by
  rw [dataCacheMerge, dataCacheMerge]
  induction members generalizing root with
  | nil => exact ⟨rfl, hroot⟩
  | cons m members ih =>
      rw [List.forall_mem_cons] at hmembers
      obtain ⟨hset, hsetIn⟩ := dataCacheSetEx_agree hagree hmembers.1.1 hmembers.1.2 hroot
      show dataCacheMerge cmp path (.object members)
          (dataCacheSetEx cmp (wcDatasyncPathParse (mergePath path m.1)) m.2 root) =
        dataCacheMerge cmp' path (.object members)
          (dataCacheSetEx cmp' (wcDatasyncPathParse (mergePath path m.1)) m.2 root) ∧ _
      rw [← hset]
      exact ih hmembers.2 hsetIn

theorem dataCacheMergeEx_agree {path : Path} (hpath : PathIn S path) {members : List (Key × Json)}
    (hx : (Json.object members).KeysIn S) {root : Treenode} (hroot : root.KeysIn S) :
    dataCacheMergeEx cmp path (.object members) root =
        dataCacheMergeEx cmp' path (.object members) root ∧
      ∀ root' ∈ dataCacheMergeEx cmp path (.object members) root, root'.KeysIn S := by
  obtain ⟨hnames, hvalues⟩ := everywhere_iff.mp hx
  rw [dataCacheMergeEx, dataCacheMergeEx]
  split
  next =>
    obtain ⟨hset, hsetIn⟩ := dataCacheSetRoot_agree hagree (.object members) hx
    exact ⟨congrArg some hset, fun root' h => Option.some.inj h ▸ hsetIn⟩
  next =>
    have hloop : ∀ (l : List (Key × Json)) (t : Children), (∀ m ∈ l, m.1 ∈ S ∧ m.2.KeysIn S) →
        ChildrenIn S t →
          l.foldl (fun t m => dataCacheSetR cmp m.1 (avlRemove cmp m.1 t) m.2) t =
              l.foldl (fun t m => dataCacheSetR cmp' m.1 (avlRemove cmp' m.1 t) m.2) t ∧
            ChildrenIn S
              (l.foldl (fun t m => dataCacheSetR cmp m.1 (avlRemove cmp m.1 t) m.2) t) := by
      intro l
      induction l with
      | nil => exact fun t _ ht => ⟨rfl, ht⟩
      | cons m l ih =>
          intro t hl ht
          rw [List.forall_mem_cons] at hl
          obtain ⟨hset, hsetIn⟩ := dataCacheSetR_agree hagree hl.1.1 hl.1.2
            (ht.remove cmp m.1)
          rw [List.foldl_cons, List.foldl_cons, ← avlRemove_agree hagree hl.1.1 ht.keys, ← hset]
          exact ih _ hl.2 hsetIn
    obtain ⟨hmk, hmkIn⟩ := dataCacheMkpathW_agree hagree hpath hroot
    have hset : ∀ n : Treenode, n.KeysIn S →
        Treenode.mapChildren (fun children =>
            members.foldl (fun children m =>
              dataCacheSetR cmp m.1 (avlRemove cmp m.1 children) m.2) children) n =
          Treenode.mapChildren (fun children =>
            members.foldl (fun children m =>
              dataCacheSetR cmp' m.1 (avlRemove cmp' m.1 children) m.2) children) n ∧
        (Treenode.mapChildren (fun children =>
            members.foldl (fun children m =>
              dataCacheSetR cmp m.1 (avlRemove cmp m.1 children) m.2) children) n).KeysIn S := by
      intro n hn
      cases n with
      | internal t hash =>
          obtain ⟨hsame, hin⟩ := hloop members t (fun m hm => ⟨hnames m hm, hvalues m hm⟩)
            (keysIn_internal_iff.mp hn)
          exact ⟨congrArg (Treenode.internal · hash) hsame, keysIn_internal_iff.mpr hin⟩
      | _ => exact ⟨rfl, hn⟩
    have hupdate := updateNode_agree hagree hset hpath _ hmkIn
    rw [← hmk]
    exact ⟨congrArg some hupdate.1, fun root' h => Option.some.inj h ▸ hupdate.2⟩

end Agree

/-! ### The same runs -/

section HashGet

variable (wcSHA1 : SHA1)

set_option linter.unusedSectionVars false in
mutual

theorem treenodeHashGet_keysIn : ∀ n : Treenode, n.KeysIn S → (treenodeHashGet wcSHA1 n).1.KeysIn S
  | .leafNull, h => h
  | .leafBool _, h => h
  | .leafNumber _ none, _ => keysIn_leaf (by simp [treenodeHashGet])
  | .leafString _ none, _ => keysIn_leaf (by simp [treenodeHashGet])
  | .leafNumber _ (some _), h => h
  | .leafString _ (some _), h => h
  | .internal _ (some _), h => h
  | .internal t none, h => by
      rw [treenodeHashGet]
      exact keysIn_internal_iff.mpr (hashChildren_in t (keysIn_internal_iff.mp h))

theorem hashChildren_in : ∀ t : Children, ChildrenIn S t → ChildrenIn S (hashChildren wcSHA1 t).1
  | .nil, h => h
  | .node l k n r _, h => by
      obtain ⟨hl, hk, hr⟩ := AvlTree.keysIn_node.mp h.keys
      have hall := h.all
      rw [AvlTree.toList_node, List.forall_mem_append, List.forall_mem_cons] at hall
      have hl' := hashChildren_in l ⟨hl, hall.1⟩
      have hr' := hashChildren_in r ⟨hr, hall.2.2⟩
      rw [hashChildren]
      refine ⟨AvlTree.keysIn_node.mpr ⟨hl'.keys, hk, hr'.keys⟩, ?_⟩
      rw [AvlTree.toList_node, List.forall_mem_append, List.forall_mem_cons]
      exact ⟨hl'.all, treenodeHashGet_keysIn n hall.2.1, hr'.all⟩

end

end HashGet

/-- The keys of a call are in `S`: the parts of its path and the names of its
document. -/
def CacheOp.KeysIn (S : Set Key) : CacheOp → Prop
  | .set path json => PathIn S (wcDatasyncPathParse path) ∧ json.KeysIn S
  | .setLeaf path _ => PathIn S (wcDatasyncPathParse path)
  | .merge path (.object members) =>
      ∀ m ∈ members, PathIn S (wcDatasyncPathParse (mergePath path m.1)) ∧ m.2.KeysIn S
  | .merge _ _ => True
  | .mergeEx path json => PathIn S path ∧ json.KeysIn S
  | .mkpath path => PathIn S (wcDatasyncPathParse path)
  | .hashGet path => PathIn S path

section Runs

variable {wcSHA1 : SHA1} {cmp cmp' : Key → Key → Ordering}

variable (wcSHA1) in
theorem cacheStep_agree (hagree : AgreeOn S cmp cmp') {op : CacheOp} (hop : op.KeysIn S)
    {root : Treenode} (hroot : root.KeysIn S) :
    cacheStep wcSHA1 cmp root op = cacheStep wcSHA1 cmp' root op ∧
      ∀ root' ∈ cacheStep wcSHA1 cmp root op, root'.KeysIn S := by
  have hdone : ∀ {r r' : Treenode}, r = r' ∧ r.KeysIn S →
      some r = some r' ∧ ∀ root' ∈ some r, root'.KeysIn S := by
    rintro r r' ⟨rfl, hr⟩
    exact ⟨rfl, fun root' h => Option.some.inj h ▸ hr⟩
  cases op with
  | set path json => exact hdone (dataCacheSetEx_agree hagree hop.1 hop.2 hroot)
  | setLeaf path leaf => exact hdone (dataCacheSetLeaf_agree hagree hop leaf hroot)
  | merge path json =>
      cases json with
      | object members => exact hdone (dataCacheMerge_agree hagree hop hroot)
      | _ => exact hdone ⟨rfl, hroot⟩
  | mergeEx path json =>
      cases json with
      | object members => exact dataCacheMergeEx_agree hagree hop.1 hop.2 hroot
      | _ => exact ⟨rfl, fun root' h => by cases h⟩
  | mkpath path => exact hdone (dataCacheMkpathW_agree hagree hop hroot)
  | hashGet path =>
      exact hdone (updateNode_agree hagree
        (fun n hn => ⟨rfl, treenodeHashGet_keysIn wcSHA1 n hn⟩) hop root hroot)

/-- **A run under one comparator is a run under any other that agrees on the
keys that occur.** -/
theorem reach_agree (hagree : AgreeOn S cmp cmp') {root : Treenode}
    (run : Reach (cacheStep wcSHA1 cmp) (fun _ op => op.KeysIn S) dataCacheNew root) :
    Reach (cacheStep wcSHA1 cmp') (fun _ _ => True) dataCacheNew root ∧ root.KeysIn S := by
  refine run.transfer (keysIn_leaf (by simp [dataCacheNew])) fun root op root' h hok hstep => ?_
  obtain ⟨hsame, hin⟩ := cacheStep_agree wcSHA1 hagree hok h
  exact ⟨trivial, hsame ▸ hstep, hin _ hstep⟩

end Runs

end WebcomSdk.Cache

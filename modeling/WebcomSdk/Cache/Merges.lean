import WebcomSdk.Cache.CacheView
import WebcomSdk.Cache.PathTexts

/-!
The two merges. `data_cache_merge` writes each member through the text of its
path, which is cut at 256 bytes of the key and at 32 parts; `data_cache_merge_ex`
writes into the node itself, and replaces the root. Both graft the members under
the path when every member's path is read back whole.
-/

namespace WebcomSdk.Cache

open WebcomSdk.Lib WebcomSdk.Collection WebcomSdk.Datasync Std

open PathBuffer (wcDatasyncPathNew)

/-! ### Where a member is written -/

theorem take_append_take {α : Type*} (l m : List α) (n : ℕ) :
    (l.take n ++ m).take n = (l ++ m).take n := by
  rcases le_total n l.length with h | h
  · rw [List.take_append_of_le_length (by simpa using h), List.take_take, Nat.min_self,
      List.take_append_of_le_length h]
  · rw [List.take_of_length_le h]

/-- The path that `data_cache_merge` writes a member to. -/
theorem pathParse_mergePath (path : Bytes) {key : Key} (hkey : slash ∉ key) :
    wcDatasyncPathParse (mergePath path key) =
      if key = [] ∨ wcDsMaxDepth ≤ (wcDatasyncPathParse path).length then wcDatasyncPathParse path
      else wcDatasyncPathParse path ++ [key.take wcDsMaxPathElementLen] := by
  have hcut : slash ∉ key.take wcDsMaxPathElementLen := fun h => hkey (List.mem_of_mem_take h)
  have hnil : key.take wcDsMaxPathElementLen = [] ↔ key = [] := by
    rw [List.take_eq_nil_iff]
    exact or_iff_right (by decide)
  have hscan : wcDatasyncPathParse (mergePath path key) =
      (wcDatasyncPathParse path ++
        if key = [] then [] else [key.take wcDsMaxPathElementLen]).take wcDsMaxDepth := by
    rw [mergePath_eq, wcDatasyncPathParse, wcDatasyncPathParse, pathScan_eq_take, pathScan_eq_take,
      components_append_slash, components_self hcut, take_append_take]
    simp only [hnil]
  have hle : (wcDatasyncPathParse path).length ≤ wcDsMaxDepth := by
    rw [wcDatasyncPathParse, pathScan_eq_take, List.length_take]
    exact Nat.min_le_left _ _
  rw [hscan]
  by_cases hempty : key = []
  · rw [if_pos hempty, if_pos (.inl hempty), List.append_nil, List.take_of_length_le hle]
  rw [if_neg hempty]
  by_cases hfull : wcDsMaxDepth ≤ (wcDatasyncPathParse path).length
  · rw [if_pos (.inr hfull), List.take_append_of_le_length hfull, List.take_of_length_le hle]
  · have hfits : (wcDatasyncPathParse path ++ [key.take wcDsMaxPathElementLen]).length ≤
        wcDsMaxDepth := by
      rw [List.length_append, List.length_singleton]
      omega
    rw [if_neg (by simp only [hempty, hfull, or_self, not_false_iff]), List.take_of_length_le hfits]

/-- The names that are read back whole. -/
def FitsPath (key : Key) : Prop := key ≠ [] ∧ key.length ≤ wcDsMaxPathElementLen

theorem pathParse_mergePath_of_fits {path : Bytes} {key : Key}
    (hpath : (wcDatasyncPathParse path).length < wcDsMaxDepth) (hslash : slash ∉ key)
    (hkey : FitsPath key) :
    wcDatasyncPathParse (mergePath path key) = wcDatasyncPathParse path ++ [key] := by
  have hwhole : ¬ (key = [] ∨ wcDsMaxDepth ≤ (wcDatasyncPathParse path).length) := by
    rintro (hnil | hfull)
    · exact hkey.1 hnil
    · omega
  rw [pathParse_mergePath path hslash, if_neg hwhole, List.take_of_length_le hkey.2]

/-! ### The maps after a merge -/

/-- The values of the members, as children. -/
def memberFaces (keyCmp : Key → Key → Ordering) (members : List (Key × Json)) :
    List (Key × CacheMap) :=
  members.map fun m => (m.1, childFaces keyCmp m.2)

theorem keys_memberFaces (keyCmp : Key → Key → Ordering) (members : List (Key × Json)) :
    (memberFaces keyCmp members).map Prod.fst = members.map Prod.fst := by
  rw [memberFaces, List.map_map]
  rfl

section Merges

variable {wcSHA1 : SHA1} {keyCmp : Key → Key → Ordering} [TransCmp keyCmp] [LawfulEqCmp keyCmp]

/-- `data_cache_merge` grafts the members under its path. -/
theorem faces_dataCacheMerge {path : Bytes}
    (hpath : (wcDatasyncPathParse path).length < wcDsMaxDepth) {members : List (Key × Json)}
    (hnames : ∀ m ∈ members, slash ∉ m.1 ∧ FitsPath m.1) {root : Treenode}
    (h : root.Forall (NodeOk wcSHA1 keyCmp)) :
    faces keyCmp (dataCacheMerge keyCmp path (.object members) root) =
      .graftAll .object (wcDatasyncPathParse path) (memberFaces keyCmp members)
        (faces keyCmp root) := by
  rw [dataCacheMerge]
  induction members generalizing root with
  | nil => rfl
  | cons m members ih =>
      rw [List.forall_mem_cons] at hnames
      have hne : wcDatasyncPathParse path ++ [m.1] ≠ [] := by simp
      rw [List.foldl_cons, ih hnames.2 (dataCacheSetEx_ok _ m.2 h),
        pathParse_mergePath_of_fits hpath hnames.1.1 hnames.1.2, faces_dataCacheSetEx hne m.2 h]
      rfl

omit [TransCmp keyCmp] [LawfulEqCmp keyCmp] in
theorem updateNode_id (path : Path) : ∀ n : Treenode, updateNode keyCmp id path n = n := by
  induction path with
  | nil => exact fun n => rfl
  | cons key path ih =>
      intro n
      cases n with
      | internal t hash =>
          have hbelow : updateNode keyCmp id path = id := funext ih
          rw [updateNode, hbelow, avlModify_id]
      | _ => rfl

omit [TransCmp keyCmp] [LawfulEqCmp keyCmp] in
theorem updateNode_updateNode (f g : Treenode → Treenode) (path : Path) : ∀ n : Treenode,
    updateNode keyCmp g path (updateNode keyCmp f path n) =
      updateNode keyCmp (g ∘ f) path n := by
  induction path with
  | nil => exact fun n => rfl
  | cons key path ih =>
      intro n
      cases n with
      | internal t hash =>
          have hcomp : updateNode keyCmp g path ∘ updateNode keyCmp f path =
              updateNode keyCmp (g ∘ f) path := funext ih
          rw [updateNode, updateNode, avlModify_avlModify, hcomp, updateNode]
      | _ => rfl

omit [TransCmp keyCmp] [LawfulEqCmp keyCmp] in
theorem unflagged_updateNode {f : Treenode → Treenode}
    (hf : ∀ n, n.cachedHash = none → (f n).cachedHash = none) (path : Path) : ∀ n : Treenode,
      Unflagged keyCmp path n → Unflagged keyCmp path (updateNode keyCmp f path n) := by
  induction path with
  | nil => exact fun n hn => hf n hn
  | cons key path ih =>
      intro n hn
      cases n with
      | internal t hash =>
          refine ⟨hn.1, fun child hchild => ?_⟩
          rw [avlFind_avlModify_self, Option.map_eq_some_iff] at hchild
          obtain ⟨c, hc, rfl⟩ := hchild
          exact ih c (hn.2 c hc)
      | _ => exact hn

omit [TransCmp keyCmp] [LawfulEqCmp keyCmp] in
theorem cachedHash_mapChildren {f : Children → Children} (n : Treenode)
    (hn : n.cachedHash = none) : (n.mapChildren f).cachedHash = none := by
  cases n with
  | internal t hash => exact hn
  | _ => exact hn

/-- The loop of `data_cache_merge_ex` grafts the members one by one. -/
theorem faces_storeMembers {path : Path} (members : List (Key × Json)) : ∀ n : Treenode,
    n.Forall (NodeOk wcSHA1 keyCmp) → Unflagged keyCmp path n →
      faces keyCmp n path = some .object →
        faces keyCmp (updateNode keyCmp (Treenode.mapChildren fun children =>
            members.foldl (fun children (key, val) =>
              dataCacheSetR keyCmp key (avlRemove keyCmp key children) val) children) path n) =
          .graftAll .object path (memberFaces keyCmp members) (faces keyCmp n) := by
  induction members with
  | nil =>
      intro n _ _ _
      have hid : (Treenode.mapChildren fun children => children) = id := by
        funext n
        cases n <;> rfl
      show faces keyCmp (updateNode keyCmp (Treenode.mapChildren fun children => children) path n) =
        faces keyCmp n
      rw [hid, updateNode_id]
  | cons m members ih =>
      intro n hn hflag hobject
      have hsplit : (Treenode.mapChildren fun children => (m :: members).foldl
          (fun children (key, val) =>
            dataCacheSetR keyCmp key (avlRemove keyCmp key children) val) children) =
          (Treenode.mapChildren fun children => members.foldl (fun children (key, val) =>
            dataCacheSetR keyCmp key (avlRemove keyCmp key children) val) children) ∘
          Treenode.mapChildren fun children =>
            dataCacheSetR keyCmp m.1 (avlRemove keyCmp m.1 children) m.2 := by
        funext n
        cases n <;> rfl
      have hstored := faces_storeUnder m.1 m.2 hn hobject
      have hok := updateNode_ok (mapChildren_ok fun t ht => dataCacheSetR_ok m.2 m.1 _
        (ht.remove m.1)) path n hflag hn
      have hobject' : faces keyCmp (updateNode keyCmp (Treenode.mapChildren fun children =>
          dataCacheSetR keyCmp m.1 (avlRemove keyCmp m.1 children) m.2) path n) path =
            some .object := by
        have hne : path ≠ path ++ [m.1] := by simp
        rw [hstored, PathMap.graft_above (List.prefix_append path [m.1]) hne]
      rw [hsplit, ← updateNode_updateNode, ih _ hok
        (unflagged_updateNode cachedHash_mapChildren path n hflag) hobject', hstored]
      rfl

/-- `data_cache_merge_ex` grafts the members under its path when that is not
the root. -/
theorem dataCacheMergeEx_spec {path : Path} (hpath : path ≠ []) (members : List (Key × Json))
    {root : Treenode} (h : root.Forall (NodeOk wcSHA1 keyCmp)) :
    ∃ root', dataCacheMergeEx keyCmp path (.object members) root = some root' ∧
      root'.Forall (NodeOk wcSHA1 keyCmp) ∧
      faces keyCmp root' = .graftAll .object path (memberFaces keyCmp members)
        (.mkdir .object path (faces keyCmp root)) := by
  obtain ⟨root', hmerge⟩ : ∃ root',
      dataCacheMergeEx keyCmp path (.object members) root = some root' := by
    rw [dataCacheMergeEx, if_neg hpath]
    exact ⟨_, rfl⟩
  refine ⟨root', hmerge, dataCacheMergeEx_ok h hmerge, ?_⟩
  obtain ⟨hmk, hflag⟩ := dataCacheMkpathW_ok path h
  have hmade := faces_dataCacheMkpathW path h
  have hobject : faces keyCmp (dataCacheMkpathW keyCmp path true false root) path =
      some .object := by
    rw [hmade, PathMap.mkdir, if_pos List.prefix_rfl]
  rw [dataCacheMergeEx, if_neg hpath] at hmerge
  rw [← Option.some.inj hmerge, faces_storeMembers members _ hmk hflag hobject, hmade]

omit [TransCmp keyCmp] [LawfulEqCmp keyCmp] in
/-- Under the root, what no member names stays. -/
theorem graftAll_root_off {members : List (Key × Json)} {key : Key}
    (hkey : key ∉ members.map Prod.fst) (rest : Path) (m : CacheMap) :
    PathMap.graftAll .object [] (memberFaces keyCmp members) m (key :: rest) = m (key :: rest) := by
  apply PathMap.graftAll_off (by simp)
  intro e he hpre
  rw [List.nil_append, List.cons_prefix_cons] at hpre
  rw [← keys_memberFaces keyCmp] at hkey
  exact hkey (hpre.1 ▸ List.mem_map_of_mem he)

omit [TransCmp keyCmp] [LawfulEqCmp keyCmp] in
theorem graftAll_root_member {members : List (Key × Json)} (hnodup : (members.map Prod.fst).Nodup)
    {key : Key} {x : Json} (hmem : (key, x) ∈ members) (rest : Path) (m : CacheMap) :
    PathMap.graftAll .object [] (memberFaces keyCmp members) m (key :: rest) =
      childFaces keyCmp x rest := by
  have hentry : (key, childFaces keyCmp x) ∈ memberFaces keyCmp members :=
    List.mem_map_of_mem (f := fun m => (m.1, childFaces keyCmp m.2)) hmem
  exact PathMap.graftAll_entry (by rwa [keys_memberFaces]) hentry rest

/-- A document at the root leaves nothing else. -/
theorem faces_setRoot_object {members : List (Key × Json)}
    (hnodup : (members.map Prod.fst).Nodup) :
    faces keyCmp (dataCacheSetRoot keyCmp (.object members)) =
      .graftAll .object [] (memberFaces keyCmp members) (.mkdir .object [] fun _ => none) := by
  rw [dataCacheSetRoot, setMembers_eq]
  funext q
  cases q with
  | nil =>
      cases members with
      | nil => rfl
      | cons m members => exact (PathMap.graftAll_above (List.cons_ne_nil _ _) List.nil_prefix).symm
  | cons key rest =>
      rw [faces_cons, avlFind_storeAll hnodup]
      cases hlookup : members.lookup key with
      | none =>
          have hkey : key ∉ members.map Prod.fst := by
            intro hkey
            obtain ⟨m, hm, rfl⟩ := List.mem_map.mp hkey
            exact absurd (List.lookup_eq_none_iff.mp hlookup m hm) (by simp)
          rw [graftAll_root_off hkey]
          rfl
      | some x =>
          obtain ⟨before, after, hsplit, -⟩ := List.lookup_eq_some_iff.mp hlookup
          rw [graftAll_root_member hnodup (by simp [hsplit] : (key, x) ∈ members)]
          rfl

/-! ### The merges compared -/

/-- `data_cache_merge_ex` on the parsed path does what `data_cache_merge` does
on its text. -/
def MergesAgree (wcSHA1 : SHA1) (g16 : DoubleBits → Bytes) (keyCmp : Key → Key → Ordering)
    (path : Bytes) (members : List (Key × Json)) (root : Treenode) : Prop :=
  ∃ root', dataCacheMergeEx keyCmp (wcDatasyncPathNew path) (.object members) root = some root' ∧
    SameCache wcSHA1 g16 keyCmp root' (dataCacheMergeText keyCmp path (.object members) root)

end Merges

/-- `{"a": null, "b": false}`. -/
def sampleMembers : List (Key × Json) := [([97], .null), ([98], .boolean false)]

theorem sampleMembers_fits : MergeFits [47, 112] sampleMembers where
  noNul := by decide
  names := by
    simp only [sampleMembers, List.forall_mem_cons, List.not_mem_nil, false_implies, implies_true,
      and_true]
    decide
  length := by decide

end WebcomSdk.Cache

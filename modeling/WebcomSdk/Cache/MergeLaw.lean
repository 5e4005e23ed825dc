import WebcomSdk.Cache.Merges

/-!
What a merge does to the cache. The law: each member is read under its name,
the other children and all that is not on the line of the path stay, and the
order of the members does not matter. It holds of `data_cache_merge` as long as
the path of every member is read back whole.
-/

namespace WebcomSdk.Cache

open WebcomSdk.Lib WebcomSdk.Collection WebcomSdk.Datasync Std

open PathBuffer (wcDatasyncPathNew)

/-- The law of `data_cache_merge` for one cache. -/
structure MergeLaw (wcSHA1 : SHA1) (g16 : DoubleBits → Bytes) (keyCmp : Key → Key → Ordering)
    (path : Bytes) (members : List (Key × Json)) (root : Treenode) : Prop where
  named : ∀ m ∈ members, ∀ rest,
    ReadsAs (wcDatasyncPathNew path ++ m.1 :: rest) (m.2.get rest)
      (dataCacheGetR keyCmp (wcDatasyncPathNew path ++ m.1 :: rest)
        (dataCacheMergeText keyCmp path (.object members) root))
  others : ∀ children hash,
    dataCacheGetR keyCmp (wcDatasyncPathNew path) root = some (.internal children hash) →
      ∀ key ∉ members.map Prod.fst, ∀ rest,
        dataCacheGetR keyCmp (wcDatasyncPathNew path ++ key :: rest)
            (dataCacheMergeText keyCmp path (.object members) root) =
          dataCacheGetR keyCmp (wcDatasyncPathNew path ++ key :: rest) root
  unrelated : ∀ q, ¬ Related (wcDatasyncPathNew path) q →
    dataCacheGetR keyCmp q (dataCacheMergeText keyCmp path (.object members) root) =
      dataCacheGetR keyCmp q root
  order : ∀ members', members.Perm members' →
    SameCache wcSHA1 g16 keyCmp (dataCacheMergeText keyCmp path (.object members) root)
      (dataCacheMergeText keyCmp path (.object members') root)

section MergeLaw

variable {wcSHA1 : SHA1} {keyCmp : Key → Key → Ordering} [TransCmp keyCmp] [LawfulEqCmp keyCmp]

/-! ### Reads after a merge -/

/-- A path that is on the line of no member's target is left alone. -/
theorem get_mergeMembers {path : Bytes} {q : Path} {members : List (Key × Json)}
    (hoff : ∀ m ∈ members, ¬ Related (wcDatasyncPathParse (mergePath path m.1)) q)
    {root : Treenode} (h : root.Forall (NodeOk wcSHA1 keyCmp)) :
    dataCacheGetR keyCmp q (dataCacheMerge keyCmp path (.object members) root) =
      dataCacheGetR keyCmp q root := by
  rw [dataCacheMerge]
  induction members generalizing root with
  | nil => rfl
  | cons m members ih =>
      rw [List.forall_mem_cons] at hoff
      rw [List.foldl_cons, ih hoff.2 (dataCacheSetEx_ok _ m.2 h), get_dataCacheSetEx m.2 h hoff.1]

theorem not_related_of_ne {path : Path} {key key' : Key} (hne : key ≠ key') (rest : Path) :
    ¬ Related (path ++ [key]) (path ++ key' :: rest) := by
  rintro (hpre | hpre) <;> rw [List.prefix_append_right_inj, List.cons_prefix_cons] at hpre
  · exact hne hpre.1.symm
  · exact hne hpre.1

omit [TransCmp keyCmp] [LawfulEqCmp keyCmp] in
theorem dataCacheMerge_append (path : Bytes) (before after : List (Key × Json)) (root : Treenode) :
    dataCacheMerge keyCmp path (.object (before ++ after)) root =
      dataCacheMerge keyCmp path (.object after)
        (dataCacheMerge keyCmp path (.object before) root) := by
  simp only [dataCacheMerge, List.foldl_append]

/-! ### The law holds -/

theorem merge_law_of_fits (g16 : DoubleBits → Bytes) {path : Bytes}
    {members : List (Key × Json)} (htexts : MergeFits path members)
    (hpath : (wcDatasyncPathParse path).length < wcDsMaxDepth)
    (hwf : (Json.object members).WellFormed)
    (hnames : ∀ m ∈ members, slash ∉ m.1 ∧ FitsPath m.1) {root : Treenode}
    (h : root.Forall (NodeOk wcSHA1 keyCmp)) :
    MergeLaw wcSHA1 g16 keyCmp path members root := by
  have htarget : ∀ m ∈ members, wcDatasyncPathParse (mergePath path m.1) =
      wcDatasyncPathParse path ++ [m.1] := fun m hm =>
    pathParse_mergePath_of_fits hpath (hnames m hm).1 (hnames m hm).2
  refine ⟨fun m hm rest => ?_, fun children hash _ key hkey rest => ?_, fun q hq => ?_,
    fun members' hperm => ?_⟩
  · rw [htexts.path_eq, htexts.merge_eq]
    -- the member is written once, and the later ones go elsewhere
    obtain ⟨before, after, rfl⟩ := List.append_of_mem hm
    have hx : m.2.WellFormed := membersWellFormed_iff.mp hwf.2 m hm
    have hbefore := dataCacheMerge_ok path (.object before) h
    have hwritten := dataCacheSetEx_ok (wcDatasyncPathParse path ++ [m.1]) m.2 hbefore
    have hkeys : ∀ m' ∈ after, m'.1 ≠ m.1 := by
      intro m' hm' heq
      have hnodup := hwf.1
      rw [List.map_append, List.map_cons] at hnodup
      have hcons := (List.nodup_append.mp hnodup).2.1
      exact (List.nodup_cons.mp hcons).1 (heq ▸ List.mem_map_of_mem hm')
    have hread : dataCacheGetR keyCmp (wcDatasyncPathParse path ++ m.1 :: rest)
        (dataCacheMerge keyCmp path (.object (before ++ m :: after)) root) =
          dataCacheGetR keyCmp (wcDatasyncPathParse path ++ m.1 :: rest)
            (dataCacheSetEx keyCmp (wcDatasyncPathParse path ++ [m.1]) m.2
              (dataCacheMerge keyCmp path (.object before) root)) := by
      rw [dataCacheMerge_append]
      show dataCacheGetR keyCmp _ (dataCacheMerge keyCmp path (.object after)
        (dataCacheSetEx keyCmp (wcDatasyncPathParse (mergePath path m.1)) m.2 _)) = _
      rw [htarget m hm, get_mergeMembers _ hwritten]
      intro m' hm'
      rw [htarget m' (by simp [hm'])]
      exact not_related_of_ne (hkeys m' hm') rest
    rw [hread, List.append_cons]
    exact readsAs_dataCacheSetEx _ hx hbefore rest
  · rw [htexts.path_eq, htexts.merge_eq]
    apply get_mergeMembers _ h
    intro m hm
    rw [htarget m hm]
    refine not_related_of_ne (fun heq => hkey ?_) rest
    exact heq ▸ List.mem_map_of_mem hm
  · rw [htexts.path_eq] at hq
    rw [htexts.merge_eq]
    exact get_dataCacheMerge _ h hq
  · rw [htexts.merge_eq, (htexts.perm hperm).merge_eq]
    have hnames' : ∀ m ∈ members', slash ∉ m.1 ∧ FitsPath m.1 := fun m hm =>
      hnames m (hperm.mem_iff.mpr hm)
    apply (sameCache_iff g16 (dataCacheMerge_ok path _ h) (dataCacheMerge_ok path _ h)).mpr
    rw [faces_dataCacheMerge hpath hnames h, faces_dataCacheMerge hpath hnames' h]
    exact PathMap.graftAll_perm (by rw [keys_memberFaces]; exact hwf.1) (hperm.map _)

/-! ### The law fails -/

/-- A key longer than the given ones. -/
theorem exists_longer (keys : List Key) : ∃ key : Key, ∀ k ∈ keys, k.length < key.length := by
  refine ⟨List.replicate ((keys.map List.length).sum + 1) 97, fun k hk => ?_⟩
  have hle : k.length ≤ (keys.map List.length).sum :=
    List.le_sum_of_mem (List.mem_map_of_mem hk)
  rw [List.length_replicate]
  omega

variable (wcSHA1 keyCmp) in
/-- Some cache holds an object with a given child at a given path. -/
theorem exists_cache_with_child (path : Path) (key : Key) (b : Bool) :
    ∃ root, Reach (cacheStep wcSHA1 keyCmp) (fun _ _ => True) dataCacheNew root ∧
      faces keyCmp root path = some .object ∧
      faces keyCmp root (path ++ [key]) = some (.leaf (.bool b)) := by
  have hnodup : ([(key, Json.boolean b)].map Prod.fst).Nodup := List.nodup_singleton key
  have hmerge : ∃ root' m, dataCacheMergeEx keyCmp path (.object [(key, .boolean b)]) dataCacheNew =
      some root' ∧ faces keyCmp root' =
        .graftAll .object path (memberFaces keyCmp [(key, .boolean b)]) m := by
    rcases eq_or_ne path [] with rfl | hpath
    · exact ⟨_, _, rfl, faces_setRoot_object hnodup⟩
    · have hnew : dataCacheNew.Forall (NodeOk wcSHA1 keyCmp) := nodeOk_leafNull
      obtain ⟨root', hex, -, hfaces⟩ := dataCacheMergeEx_spec hpath [(key, .boolean b)] hnew
      exact ⟨root', _, hex, hfaces⟩
  obtain ⟨root', m, hex, hfaces⟩ := hmerge
  refine ⟨root', .step .start trivial (show cacheStep wcSHA1 keyCmp dataCacheNew
    (.mergeEx path (.object [(key, .boolean b)])) = some root' from hex), ?_, ?_⟩
  · have hne : memberFaces keyCmp [(key, .boolean b)] ≠ [] := List.cons_ne_nil _ _
    rw [hfaces, PathMap.graftAll_above hne List.prefix_rfl]
  · have hentry : (key, childFaces keyCmp (.boolean b)) ∈
        memberFaces keyCmp [(key, .boolean b)] := List.mem_singleton.mpr rfl
    rw [hfaces]
    exact PathMap.graftAll_entry (by rwa [keys_memberFaces]) hentry []

/-- Written to the path itself, a value leaves no child that it does not have. -/
theorem get_set_absent {path : Path} {x : Json} (hx : x.WellFormed) {key : Key}
    (hkey : key ∉ x.members.map Prod.fst) {root : Treenode}
    (h : root.Forall (NodeOk wcSHA1 keyCmp)) :
    dataCacheGetR keyCmp (path ++ [key]) (dataCacheSetEx keyCmp path x root) = none := by
  have hnone : x.get [key] = none := by
    rw [Json.get]
    cases hlookup : x.members.lookup key with
    | none => rfl
    | some y =>
        obtain ⟨before, after, hsplit, -⟩ := List.lookup_eq_some_iff.mp hlookup
        exact absurd (by simp [hsplit]) hkey
  have hread := readsAs_dataCacheSetEx path hx h [key]
  rw [hnone] at hread
  exact hread

/-- A child that no member names is lost when a member is written to the path
itself. -/
theorem child_lost {path : Bytes} {members : List (Key × Json)}
    (hwf : (Json.object members).WellFormed) (hslash : ∀ m ∈ members, slash ∉ m.1) {key : Key}
    (hnames : ∀ m ∈ members, m.1.take wcDsMaxPathElementLen ≠ key)
    (hvalues : ∀ m ∈ members, key ∉ m.2.members.map Prod.fst) {m : Key × Json} (hm : m ∈ members)
    (hself : wcDatasyncPathParse (mergePath path m.1) = wcDatasyncPathParse path)
    {root : Treenode} (h : root.Forall (NodeOk wcSHA1 keyCmp)) :
    dataCacheGetR keyCmp (wcDatasyncPathParse path ++ [key])
      (dataCacheMerge keyCmp path (.object members) root) = none := by
  have hwfs := membersWellFormed_iff.mp hwf.2
  -- once it is lost no later member brings it back
  have hstays : ∀ (l : List (Key × Json)) (root : Treenode), (∀ m ∈ l, m ∈ members) →
      root.Forall (NodeOk wcSHA1 keyCmp) →
        dataCacheGetR keyCmp (wcDatasyncPathParse path ++ [key]) root = none →
          dataCacheGetR keyCmp (wcDatasyncPathParse path ++ [key])
            (dataCacheMerge keyCmp path (.object l) root) = none := by
    intro l
    induction l with
    | nil => exact fun root _ _ hnone => hnone
    | cons m' l ih =>
        intro root hl h hnone
        rw [List.forall_mem_cons] at hl
        refine ih _ hl.2 (dataCacheSetEx_ok _ m'.2 h) ?_
        show dataCacheGetR keyCmp _
          (dataCacheSetEx keyCmp (wcDatasyncPathParse (mergePath path m'.1)) m'.2 root) = none
        rw [pathParse_mergePath path (hslash m' hl.1)]
        split
        · exact get_set_absent (hwfs m' hl.1) (hvalues m' hl.1) h
        · rw [get_dataCacheSetEx m'.2 h (not_related_of_ne (hnames m' hl.1) []), hnone]
  obtain ⟨before, after, rfl⟩ := List.append_of_mem hm
  rw [dataCacheMerge_append]
  have hbefore := dataCacheMerge_ok path (.object before) h
  refine hstays after _ (fun m' hm' => by simp [hm']) (dataCacheSetEx_ok _ m.2 hbefore) ?_
  show dataCacheGetR keyCmp _
    (dataCacheSetEx keyCmp (wcDatasyncPathParse (mergePath path m.1)) m.2 _) = none
  rw [hself]
  exact get_set_absent (hwfs m hm) (hvalues m hm) hbefore

variable (wcSHA1 keyCmp) in
theorem not_merge_law_of_self (g16 : DoubleBits → Bytes) {path : Bytes}
    {members : List (Key × Json)} (htexts : MergeFits path members)
    (hwf : (Json.object members).WellFormed)
    (hslash : ∀ m ∈ members, slash ∉ m.1) {m : Key × Json} (hm : m ∈ members)
    (hself : wcDatasyncPathParse (mergePath path m.1) = wcDatasyncPathParse path) :
    ∃ root, Reach (cacheStep wcSHA1 keyCmp) (fun _ _ => True) dataCacheNew root ∧
      ¬ MergeLaw wcSHA1 g16 keyCmp path members root := by
  obtain ⟨key, hkey⟩ := exists_longer
    (members.map Prod.fst ++ members.flatMap fun m => m.2.members.map Prod.fst)
  simp only [List.mem_append, List.mem_flatMap] at hkey
  have hnames : ∀ m ∈ members, m.1.length < key.length := fun m hm =>
    hkey m.1 (.inl (List.mem_map_of_mem hm))
  obtain ⟨root, run, hobject, hchild⟩ :=
    exists_cache_with_child wcSHA1 keyCmp (wcDatasyncPathParse path) key true
  obtain ⟨children, hash, hget⟩ := faces_eq_object_iff.mp hobject
  refine ⟨root, run, fun hlaw => ?_⟩
  have hunnamed : key ∉ members.map Prod.fst := by
    intro hmem
    obtain ⟨m, hm, rfl⟩ := List.mem_map.mp hmem
    exact absurd (hnames m hm) (lt_irrefl _)
  have hcut : ∀ m ∈ members, m.1.take wcDsMaxPathElementLen ≠ key := by
    intro m hm heq
    have hlt := hnames m hm
    rw [← heq, List.length_take] at hlt
    omega
  have hvalues : ∀ m ∈ members, key ∉ m.2.members.map Prod.fst := fun m hm hmem =>
    absurd (hkey key (.inr ⟨m, hm, hmem⟩)) (lt_irrefl _)
  have hlost := child_lost hwf hslash hcut hvalues hm hself (reachable_cache_ok run)
  have hothers := hlaw.others
  rw [htexts.path_eq, htexts.merge_eq] at hothers
  rw [faces, ← hothers children hash hget key hunnamed [], hlost] at hchild
  cases hchild

/-- A value that a member does not have. -/
def otherBool : Json → Bool
  | .boolean b => !b
  | _ => true

theorem not_readsAs_otherBool {path : Path} (hpath : path ≠ []) (x : Json) :
    ¬ ReadsAs path (some x) (some (.leafBool (otherBool x))) := by
  intro h
  cases x with
  | null =>
      rw [ReadsAs, if_neg hpath] at h
      cases h
  | boolean b =>
      obtain ⟨node, hnode, hshows⟩ := h
      rw [← Option.some.inj hnode] at hshows
      cases b <;> cases hshows
  | array elements =>
      obtain ⟨node, hnode, children, hshows⟩ := h
      rw [← Option.some.inj hnode] at hshows
      cases hshows
  | object members =>
      obtain ⟨node, hnode, children, hshows⟩ := h
      rw [← Option.some.inj hnode] at hshows
      cases hshows
  | _ =>
      obtain ⟨node, hnode, hshows⟩ := h
      rw [← Option.some.inj hnode] at hshows
      cases hshows

variable (wcSHA1 keyCmp) in
theorem not_merge_law_of_long (g16 : DoubleBits → Bytes) {path : Bytes}
    {members : List (Key × Json)} (htexts : MergeFits path members)
    (hpath : (wcDatasyncPathParse path).length < wcDsMaxDepth) (hslash : ∀ m ∈ members, slash ∉ m.1)
    (hne : ∀ m ∈ members, m.1 ≠ []) {m : Key × Json} (hm : m ∈ members)
    (hlong : wcDsMaxPathElementLen < m.1.length) :
    ∃ root, Reach (cacheStep wcSHA1 keyCmp) (fun _ _ => True) dataCacheNew root ∧
      ¬ MergeLaw wcSHA1 g16 keyCmp path members root := by
  obtain ⟨root, run, -, hchild⟩ :=
    exists_cache_with_child wcSHA1 keyCmp (wcDatasyncPathParse path) m.1 (otherBool m.2)
  refine ⟨root, run, fun hlaw => ?_⟩
  have hkept : dataCacheGetR keyCmp (wcDatasyncPathParse path ++ [m.1])
      (dataCacheMerge keyCmp path (.object members) root) =
        dataCacheGetR keyCmp (wcDatasyncPathParse path ++ [m.1]) root := by
    apply get_mergeMembers _ (reachable_cache_ok run)
    intro m' hm'
    have hcut : ¬ (m'.1 = [] ∨ wcDsMaxDepth ≤ (wcDatasyncPathParse path).length) := by
      rintro (hnil | hfull)
      · exact hne m' hm' hnil
      · omega
    rw [pathParse_mergePath path (hslash m' hm'), if_neg hcut]
    refine not_related_of_ne (fun heq => ?_) []
    have hlen := congrArg List.length heq
    rw [List.length_take] at hlen
    omega
  have hleaf : dataCacheGetR keyCmp (wcDatasyncPathParse path ++ [m.1]) root =
      some (.leafBool (otherBool m.2)) := by
    obtain ⟨n, hget, hface⟩ := Option.map_eq_some_iff.mp hchild
    rw [hget]
    cases n <;> cases hface
    rfl
  have hread := hlaw.named m hm []
  rw [htexts.path_eq, htexts.merge_eq, hkept, hleaf] at hread
  exact not_readsAs_otherBool (by simp) m.2 hread

end MergeLaw

end WebcomSdk.Cache

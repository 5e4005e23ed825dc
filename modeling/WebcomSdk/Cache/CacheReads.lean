import WebcomSdk.Cache.CacheFrame
import WebcomSdk.Cache.WaitData

/-!
What is read after a write to the cache: at and below the path written, what the
document has there. `data_cache_set_ex` shortens the path it is given while it
looks for the parent, so the path is part of the state here.
-/

namespace WebcomSdk.Cache

open WebcomSdk.Lib WebcomSdk.Collection WebcomSdk.Datasync Std

/-! ### The path in place -/

/-- A `wc_ds_path_t`: the parts that its offsets point to, of which the first
`nparts` count. -/
@[ext]
structure WcDsPath where
  parts : List Key
  nparts : ℕ
  nparts_le : nparts ≤ parts.length
  depth : parts.length ≤ wcDsMaxDepth
  deriving DecidableEq

def WcDsPath.path (p : WcDsPath) : Path := p.parts.take p.nparts

/-- `nparts` is lowered around the calls that make and find the parent. -/
def dataCacheSetExInPlace (keyCmp : Key → Key → Ordering) (parsedPath : WcDsPath) (json : Json)
    (root : Treenode) : Treenode × WcDsPath :=
  let nparts := parsedPath.nparts
  if h : nparts = 0 then (dataCacheSetRoot keyCmp json, parsedPath)
  else
    let pushed : WcDsPath :=
      { parsedPath with
        nparts := nparts - 1
        nparts_le := (Nat.sub_le nparts 1).trans parsedPath.nparts_le }
    let root := dataCacheMkpathW keyCmp pushed.path true false root
    let n := pushed.path
    let popped : WcDsPath :=
      { pushed with
        nparts := pushed.nparts + 1
        nparts_le := by
          have hle := parsedPath.nparts_le
          simp only [pushed]
          omega }
    let key := popped.parts.getD (nparts - 1) []
    (updateNode keyCmp
      (Treenode.mapChildren fun children =>
        dataCacheSetR keyCmp key (avlRemove keyCmp key children) json) n root, popped)

/-! ### The values of a document -/

/-- Arrays are objects with decimal index keys. -/
def Json.members : Json → List (Key × Json)
  | .array elements => indexed 0 elements
  | .object members => members
  | _ => []

def Json.get : Path → Json → Option Json
  | [], x => some x
  | key :: path, x => (x.members.lookup key).bind (Json.get path)

/-- A node just written from a value. What an internal node holds is seen by
reading below it. -/
def Json.Shows : Json → Treenode → Prop
  | .null, n => n = .leafNull
  | .boolean b, n => n = .leafBool b
  | .double d, n => n = .leafNumber d none
  | .int i, n => n = .leafNumber (intToDouble i.toInt) none
  | .string s, n => n = .leafString s none
  | .array _, n | .object _, n => ∃ children, n = .internal children none

/-- What is read at a path where the document has `x`: nothing for a null, save
at the root. -/
def ReadsAs (path : Path) (x : Option Json) (n : Option Treenode) : Prop :=
  match x with
  | none => n = none
  | some .null => n = if path = [] then some .leafNull else none
  | some x => ∃ node, n = some node ∧ x.Shows node

/-! ### The path is given back -/

section InPlace

variable {keyCmp : Key → Key → Ordering}

theorem dataCacheSetExInPlace_eq (p : WcDsPath) (x : Json) (root : Treenode) :
    dataCacheSetExInPlace keyCmp p x root = (dataCacheSetEx keyCmp p.path x root, p) := by
  have hle := p.nparts_le
  rw [dataCacheSetExInPlace, dataCacheSetEx]
  dsimp only
  split
  next hzero =>
    have hpath : p.path = [] := by rw [WcDsPath.path, hzero, List.take_zero]
    rw [if_pos hpath]
  next hnonzero =>
    have hlength : p.path.length = p.nparts := by rw [WcDsPath.path, List.length_take]; omega
    have hpath : p.path ≠ [] := fun h => hnonzero (by rw [← hlength, h]; rfl)
    have hdrop : p.path.dropLast = p.parts.take (p.nparts - 1) := by
      rw [List.dropLast_eq_take, hlength, WcDsPath.path, List.take_take]
      congr 1
      omega
    have hlast : p.path.getLastD [] = p.parts.getD (p.nparts - 1) [] := by
      rw [List.getLastD_eq_getLast?, List.getLast?_eq_getElem?, hlength, WcDsPath.path,
        List.getElem?_take_of_lt (by omega), List.getD_eq_getElem?_getD]
    have hpopped : p.nparts - 1 + 1 = p.nparts := by omega
    rw [if_neg hpath, setUnderParent, hdrop, hlast]
    refine Prod.ext rfl (WcDsPath.ext rfl hpopped)

end InPlace

/-! ### Below the node written -/

section Reads

variable {wcSHA1 : SHA1} {keyCmp : Key → Key → Ordering} [TransCmp keyCmp] [LawfulEqCmp keyCmp]

theorem Json.members_nodup {x : Json} (hx : x.WellFormed) : (x.members.map Prod.fst).Nodup := by
  cases x with
  | array elements => exact nodup_keys_indexed elements 0
  | object members => exact hx.1
  | _ => exact List.nodup_nil

theorem Json.members_wellFormed {x : Json} (hx : x.WellFormed) :
    ∀ m ∈ x.members, m.2.WellFormed := by
  cases x with
  | array elements => exact forall_mem_indexed.mpr (elementsWellFormed_iff.mp hx)
  | object members => exact membersWellFormed_iff.mp hx.2
  | _ => exact fun m hm => absurd hm List.not_mem_nil

omit [TransCmp keyCmp] [LawfulEqCmp keyCmp] in
/-- A value other than an array or an object becomes a leaf. -/
theorem dataCacheSetRoot_cases (x : Json) :
    dataCacheSetRoot keyCmp x = .internal (storeAll keyCmp (setChild keyCmp) .nil x.members) none ∨
      x.members = [] ∧ ∀ children hash, dataCacheSetRoot keyCmp x ≠ .internal children hash := by
  cases x with
  | array elements =>
      refine .inl ?_
      rw [dataCacheSetRoot, setElements_eq]
      rfl
  | object members =>
      refine .inl ?_
      rw [dataCacheSetRoot, setMembers_eq]
      rfl
  | _ => exact .inr ⟨rfl, by simp [dataCacheSetRoot]⟩

theorem avlFind_storeAll {members : List (Key × Json)} (hnodup : (members.map Prod.fst).Nodup)
    (key : Key) :
    avlFind keyCmp key (storeAll keyCmp (setChild keyCmp) .nil members) =
      (members.lookup key).bind (setChild keyCmp) := by
  have hnil : (AvlTree.nil : Children).Ordered keyCmp := AvlTree.ordered_nil
  obtain ⟨-, hin, hout⟩ := storeAll_spec (setChild keyCmp) hnodup .nil hnil fun _ _ => rfl
  cases hlookup : members.lookup key with
  | none =>
      have hkey : key ∉ members.map Prod.fst := by
        intro hkey
        obtain ⟨m, hm, rfl⟩ := List.mem_map.mp hkey
        exact absurd (List.lookup_eq_none_iff.mp hlookup m hm) (by simp)
      rw [hout key hkey]
      rfl
  | some x =>
      obtain ⟨before, after, rfl, -⟩ := List.lookup_eq_some_iff.mp hlookup
      exact hin (key, x) (by simp)

omit [TransCmp keyCmp] [LawfulEqCmp keyCmp] in
/-- A null child is no child. -/
theorem readsAs_setChild {path rest : Path} (hpath : path ≠ []) {x : Json}
    (h : ReadsAs rest (x.get rest) (dataCacheGetR keyCmp rest (dataCacheSetRoot keyCmp x))) :
    ReadsAs path (x.get rest) ((setChild keyCmp x).bind (dataCacheGetR keyCmp rest)) := by
  have hstored : setChild keyCmp x = some (dataCacheSetRoot keyCmp x) → (rest = [] → x ≠ .null) →
      ReadsAs path (x.get rest) ((setChild keyCmp x).bind (dataCacheGetR keyCmp rest)) := by
    intro hchild hnull
    rw [hchild, Option.bind_some]
    cases hget : x.get rest with
    | none =>
        rw [hget] at h
        exact h
    | some y =>
        rw [hget] at h
        cases y with
        | null =>
            have hrest : rest ≠ [] := by
              rintro rfl
              exact hnull rfl (Option.some.inj hget)
            rw [ReadsAs, if_neg hrest] at h
            rw [ReadsAs, if_neg hpath, h]
        | _ => exact h
  cases x with
  | null =>
      have hnone : ((setChild keyCmp .null).bind (dataCacheGetR keyCmp rest)) = none := rfl
      rw [hnone]
      cases rest with
      | nil =>
          show none = if path = [] then some Treenode.leafNull else none
          rw [if_neg hpath]
      | cons key rest => rfl
  | _ => exact hstored rfl (by simp)

theorem readsAs_setRoot (path : Path) : ∀ x : Json, x.WellFormed →
    ReadsAs path (x.get path) (dataCacheGetR keyCmp path (dataCacheSetRoot keyCmp x)) := by
  induction path with
  | nil =>
      intro x _
      cases x with
      | null => rfl
      | array elements => exact ⟨_, rfl, _, rfl⟩
      | object members => exact ⟨_, rfl, _, rfl⟩
      | _ => exact ⟨_, rfl, rfl⟩
  | cons key path ih =>
      intro x hx
      have hget : dataCacheGetR keyCmp (key :: path) (dataCacheSetRoot keyCmp x) =
          ((x.members.lookup key).bind (setChild keyCmp)).bind (dataCacheGetR keyCmp path) := by
        have hcases : dataCacheSetRoot keyCmp x = _ ∨ _ := dataCacheSetRoot_cases x
        rcases hcases with hroot | ⟨hmembers, hleaf⟩
        · rw [hroot, dataCacheGetR_cons, avlFind_storeAll (Json.members_nodup hx)]
        · rw [hmembers, dataCacheGetR_leaf hleaf (List.cons_ne_nil key path)]
          rfl
      rw [Json.get, hget]
      cases hlookup : x.members.lookup key with
      | none => rfl
      | some y =>
          obtain ⟨before, after, hsplit, -⟩ := List.lookup_eq_some_iff.mp hlookup
          have hy : y.WellFormed := Json.members_wellFormed hx (key, y) (by simp [hsplit])
          exact readsAs_setChild (List.cons_ne_nil key path) (ih y hy)

/-! ### At the node written -/

omit [TransCmp keyCmp] [LawfulEqCmp keyCmp] in
theorem get_updateNode_self (f : Treenode → Treenode) (path : Path) : ∀ n : Treenode,
    dataCacheGetR keyCmp path (updateNode keyCmp f path n) =
      (dataCacheGetR keyCmp path n).map f := by
  induction path with
  | nil => exact fun n => rfl
  | cons key path ih =>
      intro n
      cases n with
      | internal children hash =>
          rw [updateNode, dataCacheGetR_cons, dataCacheGetR_cons, avlFind_avlModify_self]
          cases avlFind keyCmp key children with
          | none => rfl
          | some child => exact ih child
      | _ => rfl

/-- `data_cache_mkpath_w` leaves an internal node at its path. -/
theorem get_mkpathFrom_self (path : Path) : ∀ t : Children, ChildrenOk wcSHA1 keyCmp t →
    ∃ t', dataCacheGetR keyCmp path (mkpathFrom keyCmp true false path t none) =
      some (.internal t' none) := by
  induction path with
  | nil => exact fun t _ => ⟨t, rfl⟩
  | cons key path ih =>
      intro t ht
      have hnew := ih .nil childrenOk_nil
      rw [mkpathFrom]
      cases hfind : avlFind keyCmp key t with
      | none => rwa [dataCacheGetR_cons, avlFind_internalAddNew ht.ordered _ hfind, if_pos rfl]
      | some cur =>
          have hremoved : avlFind keyCmp key (avlRemove keyCmp key t) = none := by
            rw [avlFind_avlRemove ht.ordered, if_pos ReflCmp.compare_self]
          have hmake : ∃ t', dataCacheGetR keyCmp (key :: path)
              (.internal (internalAddNew keyCmp key
              (mkpathFrom keyCmp true false path .nil none) (avlRemove keyCmp key t)) none) =
              some (.internal t' none) := by
            rwa [dataCacheGetR_cons,
              avlFind_internalAddNew (ht.remove key).ordered _ hremoved, if_pos rfl]
          cases cur with
          | internal sub subHash =>
              have hsub := (ht.all _ ((avlFind_eq_some_iff ht.ordered).mp hfind)).childrenOk
              show ∃ t', dataCacheGetR keyCmp (key :: path) (.internal (avlModify keyCmp key
                (fun _ => mkpathFrom keyCmp true false path sub none) t) none) = _
              rw [dataCacheGetR_cons, avlFind_avlModify_self, hfind]
              exact ih sub hsub
          | leafNull => exact hmake
          | leafBool _ => exact hmake
          | leafNumber _ _ => exact hmake
          | leafString _ _ => exact hmake

theorem get_dataCacheMkpathW_self (path : Path) {root : Treenode}
    (h : root.Forall (NodeOk wcSHA1 keyCmp)) :
    ∃ t, dataCacheGetR keyCmp path (dataCacheMkpathW keyCmp path true false root) =
      some (.internal t none) := by
  cases root with
  | internal children hash => exact get_mkpathFrom_self path children h.childrenOk
  | _ =>
      have hnil : ChildrenOk wcSHA1 keyCmp .nil := childrenOk_nil
      exact get_mkpathFrom_self path .nil hnil

theorem avlFind_store_self {t : Children} (ht : t.Ordered keyCmp) (key : Key)
    (o : Option Treenode) :
    avlFind keyCmp key (store keyCmp key o (avlRemove keyCmp key t)) = o := by
  have hord : (avlRemove keyCmp key t).Ordered keyCmp := ordered_avlRemove ht key
  have hremoved : avlFind keyCmp key (avlRemove keyCmp key t) = none := by
    rw [avlFind_avlRemove ht, if_pos ReflCmp.compare_self]
  cases o with
  | none => rw [store, avlFind_avlRemove hord, if_pos ReflCmp.compare_self]
  | some n => rw [store, avlFind_internalAddNew hord _ hremoved, if_pos rfl]

theorem avlFind_dataCacheSetR_self {t : Children} (ht : t.Ordered keyCmp) (key : Key) (x : Json) :
    avlFind keyCmp key (dataCacheSetR keyCmp key (avlRemove keyCmp key t) x) =
      setChild keyCmp x := by
  rw [dataCacheSetR_eq, avlFind_store_self ht]

/-- What `data_cache_set_ex` leaves at its path. -/
theorem get_dataCacheSetEx_self {path : Path} (hpath : path ≠ []) (x : Json) {root : Treenode}
    (h : root.Forall (NodeOk wcSHA1 keyCmp)) :
    dataCacheGetR keyCmp path (dataCacheSetEx keyCmp path x root) = setChild keyCmp x := by
  have hsplit : path = path.dropLast ++ [path.getLastD []] := by
    rw [List.getLastD_eq_getLast?, List.getLast?_eq_some_getLast hpath]
    exact (List.dropLast_append_getLast hpath).symm
  obtain ⟨t, hget⟩ := get_dataCacheMkpathW_self path.dropLast h
  have ht := (forall_get (dataCacheMkpathW_ok path.dropLast h).1 hget).childrenOk
  rw [dataCacheSetEx, if_neg hpath, setUnderParent]
  nth_rewrite 1 [hsplit]
  rw [get_append, get_updateNode_self, hget]
  show (avlFind keyCmp _ (dataCacheSetR keyCmp _ _ x)).bind (dataCacheGetR keyCmp []) = _
  rw [avlFind_dataCacheSetR_self ht.ordered]
  cases setChild keyCmp x <;> rfl

/-- At and below its path `data_cache_set_ex` leaves what the document has. -/
theorem readsAs_dataCacheSetEx (path : Path) {x : Json} (hx : x.WellFormed) {root : Treenode}
    (h : root.Forall (NodeOk wcSHA1 keyCmp)) (rest : Path) :
    ReadsAs (path ++ rest) (x.get rest)
      (dataCacheGetR keyCmp (path ++ rest) (dataCacheSetEx keyCmp path x root)) := by
  rcases eq_or_ne path [] with rfl | hpath
  · rw [List.nil_append, dataCacheSetEx, if_pos rfl]
    exact readsAs_setRoot rest x hx
  · have happend : path ++ rest ≠ [] := fun h => hpath (List.append_eq_nil_iff.mp h).1
    rw [get_append, get_dataCacheSetEx_self hpath x h]
    exact readsAs_setChild happend (readsAs_setRoot rest x hx)

/-- **Writes to the cache.** After `data_cache_set_ex` the cache has at and below
the path what the document has, elsewhere what it had, and the path is as it was. -/
theorem set_then_get {root : Treenode}
    (run : Reach (cacheStep wcSHA1 keyCmp) (fun _ _ => True) dataCacheNew root) (p : WcDsPath)
    {x : Json} (hx : x.WellFormed) :
    (dataCacheSetExInPlace keyCmp p x root).2 = p ∧
      (∀ rest, ReadsAs (p.path ++ rest) (x.get rest)
        (dataCacheGetR keyCmp (p.path ++ rest) (dataCacheSetExInPlace keyCmp p x root).1)) ∧
      ∀ q, ¬ Related p.path q →
        dataCacheGetR keyCmp q (dataCacheSetExInPlace keyCmp p x root).1 =
          dataCacheGetR keyCmp q root := by
  have hroot := reachable_cache_ok run
  rw [dataCacheSetExInPlace_eq]
  refine ⟨rfl, fun rest => ?_, fun q hq => get_dataCacheSetEx x hroot hq⟩
  exact readsAs_dataCacheSetEx p.path hx hroot rest

/-- A leaf on the way to `/a/b` gives way, and the null in the document leaves
nothing. -/
theorem set_then_get_below_leaf :
    ∃ root, runSteps (cacheStep sampleSHA1 strcmp) (fun _ _ => True) dataCacheNew
        [.set [47, 97] (.boolean true)] = some root ∧
      ReadsAs [[97], [98], [48]] (some (.boolean false))
        (dataCacheGetR strcmp [[97], [98], [48]] (dataCacheSetExInPlace strcmp
          ⟨[[97], [98]], 2, by decide, by decide⟩ (.array [.boolean false, .null]) root).1) := by
  have hrun : ∃ root, runSteps (cacheStep sampleSHA1 strcmp) (fun _ _ => True) dataCacheNew
      [.set [47, 97] (.boolean true)] = some root := ⟨_, rfl⟩
  obtain ⟨root, hroot⟩ := hrun
  have hwf : (Json.array [.boolean false, .null]).WellFormed := ⟨trivial, trivial, trivial⟩
  have hset := set_then_get (Reach.of_runSteps .start hroot)
    ⟨[[97], [98]], 2, by decide, by decide⟩ hwf
  exact ⟨root, hroot, hset.2.1 [[48]]⟩

end Reads

end WebcomSdk.Cache

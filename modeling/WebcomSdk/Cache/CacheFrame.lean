import WebcomSdk.Cache.CacheHash

/-!
What a write to the cache leaves alone: every value that is neither above, at
nor below the path written.
-/

namespace WebcomSdk.Cache

open WebcomSdk.Collection WebcomSdk.Datasync Std

section Frame

variable {wcSHA1 : SHA1} {keyCmp : Key → Key → Ordering}

theorem dataCacheGetR_cons (key : Key) (path : Path) (children : Children)
    (hash : Option TreenodeHash) :
    dataCacheGetR keyCmp (key :: path) (.internal children hash) =
      (avlFind keyCmp key children).bind (dataCacheGetR keyCmp path) := rfl

/-- Below a leaf there is nothing. -/
theorem dataCacheGetR_leaf {n : Treenode} (hn : ∀ children hash, n ≠ .internal children hash)
    {path : Path} (hpath : path ≠ []) : dataCacheGetR keyCmp path n = none := by
  obtain ⟨key, path, rfl⟩ := List.exists_cons_of_ne_nil hpath
  cases n with
  | internal children hash => exact absurd rfl (hn children hash)
  | _ => rfl

theorem dataCacheGetR_nil {path : Path} (hpath : path ≠ []) (hash : Option TreenodeHash) :
    dataCacheGetR keyCmp path (.internal .nil hash) = none := by
  obtain ⟨key, path, rfl⟩ := List.exists_cons_of_ne_nil hpath
  rfl

theorem get_append (path rest : Path) (n : Treenode) :
    dataCacheGetR keyCmp (path ++ rest) n =
      (dataCacheGetR keyCmp path n).bind (dataCacheGetR keyCmp rest) := by
  induction path generalizing n with
  | nil => rfl
  | cons key path ih =>
      cases n with
      | internal children hash =>
          rw [List.cons_append, dataCacheGetR_cons, dataCacheGetR_cons]
          cases avlFind keyCmp key children with
          | none => rfl
          | some child => exact ih child
      | _ => rfl

variable [TransCmp keyCmp] [LawfulEqCmp keyCmp] {t : Children}

/-- What is read from a sound cache is sound. -/
theorem forall_get {path : Path} {root n : Treenode} (h : root.Forall (NodeOk wcSHA1 keyCmp))
    (hn : dataCacheGetR keyCmp path root = some n) : n.Forall (NodeOk wcSHA1 keyCmp) := by
  induction path generalizing root with
  | nil => exact Option.some.inj hn ▸ h
  | cons key path ih =>
      cases root with
      | internal children hash =>
          rw [dataCacheGetR_cons] at hn
          obtain ⟨child, hchild, hn⟩ := Option.bind_eq_some_iff.mp hn
          have hc := h.childrenOk
          exact ih (hc.all _ ((avlFind_eq_some_iff hc.ordered).mp hchild)) hn
      | _ => cases hn

/-! ### Children with other keys -/

theorem avlFind_internalAddNew_of_ne (ht : t.Ordered keyCmp) {key q : Key} (node : Treenode)
    (hq : q ≠ key) : avlFind keyCmp q (internalAddNew keyCmp key node t) = avlFind keyCmp q t := by
  cases hfind : avlFind keyCmp key t with
  | some n => rw [internalAddNew_of_find_some node hfind]
  | none => rw [avlFind_internalAddNew ht node hfind, if_neg hq]

theorem avlFind_avlRemove_of_ne (ht : t.Ordered keyCmp) {key q : Key} (hq : q ≠ key) :
    avlFind keyCmp q (avlRemove keyCmp key t) = avlFind keyCmp q t := by
  rw [avlFind_avlRemove ht, if_neg fun heq => hq (LawfulEqCmp.compare_eq_iff_eq.mp heq)]

theorem avlFind_avlModify_of_ne (ht : t.Ordered keyCmp) {key q : Key} (f : Treenode → Treenode)
    (hq : q ≠ key) : avlFind keyCmp q (avlModify keyCmp key f t) = avlFind keyCmp q t := by
  rw [avlFind_avlModify ht, if_neg fun heq => hq (LawfulEqCmp.compare_eq_iff_eq.mp heq)]

theorem avlFind_dataCacheSetR_of_ne (ht : t.Ordered keyCmp) {key q : Key} (x : Json)
    (hq : q ≠ key) : avlFind keyCmp q (dataCacheSetR keyCmp key t x) = avlFind keyCmp q t := by
  cases x with
  | null => exact avlFind_avlRemove_of_ne ht hq
  | _ => exact avlFind_internalAddNew_of_ne ht _ hq

/-! ### Writes along a path -/

theorem get_mkpathFrom (path : Path) : ∀ (t : Children) (hash : Option TreenodeHash) (q : Path),
    ChildrenOk wcSHA1 keyCmp t → ¬ q <+: path →
      dataCacheGetR keyCmp q (mkpathFrom keyCmp true false path t hash) =
        dataCacheGetR keyCmp q (.internal t none) := by
  induction path with
  | nil =>
      intro t hash q _ hq
      cases q with
      | nil => exact absurd List.prefix_rfl hq
      | cons k q => rfl
  | cons key path ih =>
      intro t hash q ht hq
      cases q with
      | nil => exact absurd List.nil_prefix hq
      | cons k q =>
          have hnew : ∀ q, ¬ q <+: path → dataCacheGetR keyCmp q
              (mkpathFrom keyCmp true false path .nil none) = none := by
            intro q hq
            have hne : q ≠ [] := fun h => hq (h ▸ List.nil_prefix)
            rw [ih _ _ q childrenOk_nil hq, dataCacheGetR_nil hne]
          rw [mkpathFrom, dataCacheGetR_cons]
          by_cases hk : k = key
          · subst hk
            have hq' : ¬ q <+: path := fun h => hq (by simpa using h)
            have hne : q ≠ [] := fun h => hq' (h ▸ List.nil_prefix)
            cases hfind : avlFind keyCmp k t with
            | none =>
                rw [dataCacheGetR_cons, avlFind_internalAddNew ht.ordered _ hfind, if_pos rfl]
                exact hnew q hq'
            | some cur =>
                have hremoved : avlFind keyCmp k (avlRemove keyCmp k t) = none := by
                  rw [avlFind_avlRemove ht.ordered, if_pos ReflCmp.compare_self]
                -- a leaf on the way makes room for an internal node
                have hmake : (∀ children hash, cur ≠ .internal children hash) →
                    dataCacheGetR keyCmp (k :: q) (.internal (internalAddNew keyCmp k
                      (mkpathFrom keyCmp true false path .nil none) (avlRemove keyCmp k t)) hash) =
                    dataCacheGetR keyCmp q cur := by
                  intro hleaf
                  rw [dataCacheGetR_cons,
                    avlFind_internalAddNew (ht.remove k).ordered _ hremoved, if_pos rfl,
                    dataCacheGetR_leaf hleaf hne]
                  exact hnew q hq'
                cases cur with
                | internal sub subHash =>
                    have hsub := (ht.all _ ((avlFind_eq_some_iff ht.ordered).mp hfind)).childrenOk
                    show dataCacheGetR keyCmp (k :: q) (.internal (avlModify keyCmp k
                      (fun _ => mkpathFrom keyCmp true false path sub none) t) hash) = _
                    rw [dataCacheGetR_cons, avlFind_avlModify ht.ordered,
                      if_pos ReflCmp.compare_self, hfind]
                    show dataCacheGetR keyCmp q (mkpathFrom keyCmp true false path sub none) = _
                    rw [ih sub none q hsub hq']
                    obtain ⟨k', q, rfl⟩ := List.exists_cons_of_ne_nil hne
                    rfl
                | leafNull => exact hmake (by simp)
                | leafBool _ => exact hmake (by simp)
                | leafNumber _ _ => exact hmake (by simp)
                | leafString _ _ => exact hmake (by simp)
          · split
            · rw [dataCacheGetR_cons, avlFind_internalAddNew_of_ne ht.ordered _ hk]
            · rw [dataCacheGetR_cons, avlFind_avlModify_of_ne ht.ordered _ hk]
            · rw [dataCacheGetR_cons, avlFind_internalAddNew_of_ne (ht.remove key).ordered _ hk,
                avlFind_avlRemove_of_ne ht.ordered hk]

theorem get_dataCacheMkpathW {path q : Path} {root : Treenode}
    (h : root.Forall (NodeOk wcSHA1 keyCmp)) (hq : ¬ q <+: path) :
    dataCacheGetR keyCmp q (dataCacheMkpathW keyCmp path true false root) =
      dataCacheGetR keyCmp q root := by
  have hne : q ≠ [] := fun h => hq (h ▸ List.nil_prefix)
  have hleaf : (∀ children hash, root ≠ .internal children hash) →
      dataCacheGetR keyCmp q (mkpathFrom keyCmp true false path .nil none) =
        dataCacheGetR keyCmp q root := by
    intro hleaf
    have hnil : ChildrenOk wcSHA1 keyCmp .nil := childrenOk_nil
    rw [get_mkpathFrom path _ _ q hnil hq, dataCacheGetR_nil hne, dataCacheGetR_leaf hleaf hne]
  cases root with
  | internal children hash =>
      show dataCacheGetR keyCmp q (mkpathFrom keyCmp true false path children none) = _
      rw [get_mkpathFrom path _ _ q h.childrenOk hq]
      obtain ⟨k, q, rfl⟩ := List.exists_cons_of_ne_nil hne
      rfl
  | leafNull => exact hleaf (by simp)
  | leafBool _ => exact hleaf (by simp)
  | leafNumber _ _ => exact hleaf (by simp)
  | leafString _ _ => exact hleaf (by simp)

theorem get_updateNode {parent : Path} {key : Key} {set : Children → Children}
    (hset : ∀ t q, t.Ordered keyCmp → q ≠ key → avlFind keyCmp q (set t) = avlFind keyCmp q t) :
    ∀ (n : Treenode) (q : Path), n.Forall (NodeOk wcSHA1 keyCmp) →
      ¬ Related (parent ++ [key]) q →
      dataCacheGetR keyCmp q (updateNode keyCmp (Treenode.mapChildren set) parent n) =
        dataCacheGetR keyCmp q n := by
  induction parent with
  | nil =>
      intro n q hn hq
      cases q with
      | nil => exact absurd (.inl List.nil_prefix) hq
      | cons k q =>
          have hk : k ≠ key := by
            rintro rfl
            exact hq (.inr (by simp))
          cases n with
          | internal children hash =>
              show dataCacheGetR keyCmp (k :: q) (.internal (set children) hash) = _
              rw [dataCacheGetR_cons, hset _ _ hn.childrenOk.ordered hk]
              rfl
          | _ => rfl
  | cons key' parent ih =>
      intro n q hn hq
      cases q with
      | nil => exact absurd (.inl List.nil_prefix) hq
      | cons k q =>
          cases n with
          | internal children hash =>
              have hc := hn.childrenOk
              rw [updateNode, dataCacheGetR_cons, dataCacheGetR_cons]
              by_cases hk : k = key'
              · subst hk
                have hq' : ¬ Related (parent ++ [key]) q := fun h => hq (related_cons.mpr h)
                rw [avlFind_avlModify hc.ordered, if_pos ReflCmp.compare_self]
                cases hfind : avlFind keyCmp k children with
                | none => rfl
                | some n => exact ih n q (hc.all _ ((avlFind_eq_some_iff hc.ordered).mp hfind)) hq'
              · rw [avlFind_avlModify_of_ne hc.ordered _ hk]
          | _ => rfl

/-! ### Pushes -/

theorem get_dataCacheSetEx {path q : Path} (x : Json) {root : Treenode}
    (h : root.Forall (NodeOk wcSHA1 keyCmp)) (hq : ¬ Related path q) :
    dataCacheGetR keyCmp q (dataCacheSetEx keyCmp path x root) = dataCacheGetR keyCmp q root := by
  rw [dataCacheSetEx]
  split
  next hpath =>
    subst hpath
    exact absurd (.inr List.nil_prefix) hq
  next hpath =>
    have hsplit : path.dropLast ++ [path.getLastD []] = path := by
      rw [List.getLastD_eq_getLast?, List.getLast?_eq_some_getLast hpath]
      exact List.dropLast_append_getLast hpath
    have hparent : ¬ q <+: path.dropLast := fun hpre =>
      hq (.inl (hpre.trans (List.dropLast_prefix path)))
    rw [setUnderParent,
      get_updateNode _ _ q (dataCacheMkpathW_ok path.dropLast h).1 (by rwa [hsplit]),
      get_dataCacheMkpathW h hparent]
    intro t k ht hk
    rw [avlFind_dataCacheSetR_of_ne (ordered_avlRemove ht _) x hk, avlFind_avlRemove_of_ne ht hk]

/-- `data_cache_set` changes nothing off the line of its path. -/
theorem get_dataCacheSet {path : Bytes} {q : Path} (x : Json) {root : Treenode}
    (h : root.Forall (NodeOk wcSHA1 keyCmp)) (hq : ¬ Related (wcDatasyncPathParse path) q) :
    dataCacheGetR keyCmp q (dataCacheSet keyCmp path x root) = dataCacheGetR keyCmp q root :=
  get_dataCacheSetEx x h hq

omit [TransCmp keyCmp] [LawfulEqCmp keyCmp] in
theorem mergePath_eq (path key : Bytes) :
    mergePath path key = path ++ slash :: key.take wcDsMaxPathElementLen := by
  have hrest : path.length + 1 + wcDsMaxPathElementLen - path.length =
      wcDsMaxPathElementLen + 1 := by
    omega
  rw [mergePath, List.take_append, List.take_of_length_le (by omega), hrest, List.take_succ_cons]

omit [TransCmp keyCmp] [LawfulEqCmp keyCmp] in
theorem prefix_pathParse_mergePath (path key : Bytes) :
    wcDatasyncPathParse path <+: wcDatasyncPathParse (mergePath path key) := by
  rw [mergePath_eq]
  exact prefix_pathParse_append path _

/-- `data_cache_merge` changes nothing off the line of its path. -/
theorem get_dataCacheMerge {path : Bytes} {q : Path} (x : Json) {root : Treenode}
    (h : root.Forall (NodeOk wcSHA1 keyCmp)) (hq : ¬ Related (wcDatasyncPathParse path) q) :
    dataCacheGetR keyCmp q (dataCacheMerge keyCmp path x root) = dataCacheGetR keyCmp q root := by
  cases x with
  | object members =>
      rw [dataCacheMerge]
      induction members generalizing root with
      | nil => rfl
      | cons m members ih =>
          rw [List.foldl_cons, ih (dataCacheSetEx_ok _ m.2 h), get_dataCacheSetEx m.2 h
            (not_related_extend (prefix_pathParse_mergePath path m.1) hq)]
  | _ => rfl

end Frame

end WebcomSdk.Cache

import WebcomSdk.Cache.CacheReads
import WebcomSdk.Cache.JsonText
import WebcomSdk.Lib.PathMap

/-!
A cache as a map from paths. Only the leaves and which nodes are internal count:
they determine the JSON text and the hash at every path. A push grafts the value
of its document into the map.
-/

namespace WebcomSdk.Cache

open WebcomSdk.Lib WebcomSdk.Collection WebcomSdk.Datasync Std

/-! ### The map -/

/-- What a node is apart from its children. -/
inductive Face where
  | leaf (value : LeafValue)
  | object
  deriving Repr, DecidableEq

def Treenode.face : Treenode → Face
  | .leafNull => .leaf .null
  | .leafBool b => .leaf (.bool b)
  | .leafNumber d _ => .leaf (.number d)
  | .leafString s _ => .leaf (.string s)
  | .internal _ _ => .object

abbrev CacheMap := PathMap Key Face

def faces (keyCmp : Key → Key → Ordering) (root : Treenode) : CacheMap := fun path =>
  (dataCacheGetR keyCmp path root).map Treenode.face

/-- The value of a document where it is a child: a null is no child. -/
def childFaces (keyCmp : Key → Key → Ordering) (x : Json) : CacheMap := fun path =>
  (setChild keyCmp x).bind fun n => faces keyCmp n path

/-- The JSON text and the hash of the value at a path, as the callers of
`data_cache_get` get them. -/
def observed (wcSHA1 : SHA1) (g16 : DoubleBits → Bytes) (keyCmp : Key → Key → Ordering)
    (path : Path) (root : Treenode) : Bytes × Option TreenodeHash :=
  let n := dataCacheGetR keyCmp path root
  (jsonText g16 n, n.bind fun n => (treenodeHashGet wcSHA1 n).2)

/-! ### Texts of the entries -/

/-- What the text of an object shows of one entry: its key, whether it is null,
and the text of its value. -/
def shownEntry (g16 : DoubleBits → Bytes) (e : Key × Treenode) : Key × Bool × Bytes :=
  (e.1, e.2.isNull, treenodeToJson g16 e.2)

/-- The entries of an object, the commas where the loop puts them. -/
def entriesText (hasNext : Bool) : List (Key × Bool × Bytes) → Bytes
  | [] => []
  | (key, isNull, text) :: entries =>
      (if isNull then []
        else jsonEscapeStr key ++ colon :: text ++
          (if hasNext || entries.length > 0 then [44] else [])) ++
        entriesText hasNext entries

theorem entriesText_append (hasNext : Bool) (l l' : List (Key × Bool × Bytes)) :
    entriesText hasNext (l ++ l') =
      entriesText (hasNext || l'.length > 0) l ++ entriesText hasNext l' := by
  induction l with
  | nil => rfl
  | cons e l ih =>
      have hmore : (hasNext || decide ((l ++ l').length > 0)) =
          (hasNext || decide (l'.length > 0) || decide (l.length > 0)) := by
        cases l <;> cases l' <;> simp
      rw [List.cons_append, entriesText, entriesText, ih, hmore]
      simp only [List.append_assoc]

theorem childrenToJson_eq (g16 : DoubleBits → Bytes) (t : Children) : ∀ hasNext : Bool,
    childrenToJson g16 hasNext t = entriesText hasNext (t.toList.map (shownEntry g16)) := by
  induction t with
  | nil => exact fun _ => rfl
  | node l k n r h ihl ihr =>
      intro hasNext
      have hafter : (hasNext || decide ((shownEntry g16 (k, n) ::
          r.toList.map (shownEntry g16)).length > 0)) = true := by
        simp
      have hsize : (r.toList.map (shownEntry g16)).length = r.size := by
        rw [List.length_map, AvlTree.length_toList]
      rw [AvlTree.toList_node, List.map_append, List.map_cons, entriesText_append, hafter,
        shownEntry, entriesText, hsize, childrenToJson, ihl true, ihr hasNext, List.append_assoc]

/-! ### The map determines the text and the hash -/

section Faces

variable {wcSHA1 : SHA1} {keyCmp : Key → Key → Ordering}

theorem faces_cons (key : Key) (path : Path) (t : Children) (hash : Option TreenodeHash) :
    faces keyCmp (.internal t hash) (key :: path) =
      (avlFind keyCmp key t).bind fun n => faces keyCmp n path := by
  rw [faces, dataCacheGetR_cons]
  cases avlFind keyCmp key t <;> rfl

theorem faces_append (path rest : Path) (root : Treenode) :
    faces keyCmp root (path ++ rest) =
      (dataCacheGetR keyCmp path root).bind fun n => faces keyCmp n rest := by
  rw [faces, get_append]
  cases dataCacheGetR keyCmp path root <;> rfl

theorem faces_leaf {n : Treenode} (hn : n.face ≠ .object) {path : Path} (hpath : path ≠ []) :
    faces keyCmp n path = none := by
  have hleaf : ∀ t hash, n ≠ .internal t hash := by
    rintro t hash rfl
    exact hn rfl
  rw [faces, dataCacheGetR_leaf hleaf hpath]
  rfl

theorem face_eq_object {n : Treenode} (h : n.face = .object) :
    ∃ t hash, n = .internal t hash := by
  cases n with
  | internal t hash => exact ⟨t, hash, rfl⟩
  | _ => cases h

/-- Two nodes that may be absent and look the same on every path below them are
both absent, or have the same map. -/
theorem bind_faces_cases {o o' : Option Treenode}
    (h : ∀ path, o.bind (fun n => faces keyCmp n path) = o'.bind fun n => faces keyCmp n path) :
    (o = none ∧ o' = none) ∨
      ∃ n n', o = some n ∧ o' = some n' ∧ faces keyCmp n = faces keyCmp n' := by
  have hself : o.map Treenode.face = o'.map Treenode.face := by
    have hnil := h []
    cases o <;> cases o' <;> exact hnil
  cases o with
  | none =>
      cases o' with
      | none => exact .inl ⟨rfl, rfl⟩
      | some n' => cases hself
  | some n =>
      cases o' with
      | none => cases hself
      | some n' => exact .inr ⟨n, n', rfl, rfl, funext h⟩

theorem isNull_iff_face {n : Treenode} : n.isNull = true ↔ n.face = .leaf .null := by
  cases n <;> simp [Treenode.isNull, Treenode.face]

variable [TransCmp keyCmp] [LawfulEqCmp keyCmp]

/-- Two levels agree on what they show of each entry when the children do. -/
theorem map_toList_congr {γ : Type} {φ : Treenode → γ} {t t' : Children}
    (ht : t.Ordered keyCmp) (ht' : t'.Ordered keyCmp)
    (h : ∀ key, (avlFind keyCmp key t).map φ = (avlFind keyCmp key t').map φ) :
    t.toList.map (fun e => (e.1, φ e.2)) = t'.toList.map fun e => (e.1, φ e.2) := by
  have hsorted : ∀ {t : Children}, t.Ordered keyCmp →
      (t.toList.map fun e => (e.1, φ e.2)).Pairwise fun a b => keyCmp a.1 b.1 = .lt := by
    intro t ht
    rw [List.pairwise_map]
    exact ht
  have hmem : ∀ {t : Children}, t.Ordered keyCmp → ∀ e,
      e ∈ t.toList.map (fun e => (e.1, φ e.2)) ↔ (avlFind keyCmp e.1 t).map φ = some e.2 := by
    intro t ht e
    simp only [List.mem_map, Option.map_eq_some_iff, avlFind_eq_some_iff ht]
    constructor
    · rintro ⟨a, ha, rfl⟩
      exact ⟨a.2, ha, rfl⟩
    · rintro ⟨n, hn, hφ⟩
      exact ⟨(e.1, n), hn, by rw [hφ]⟩
  apply sorted_ext (hsorted ht) (hsorted ht')
  intro e
  rw [hmem ht, hmem ht', h]

/-- **The map determines the text and the hash.** -/
theorem text_and_hash_of_faces (g16 : DoubleBits → Bytes) : ∀ n n' : Treenode,
    n.Forall (NodeOk wcSHA1 keyCmp) → n'.Forall (NodeOk wcSHA1 keyCmp) →
      faces keyCmp n = faces keyCmp n' →
        treenodeToJson g16 n = treenodeToJson g16 n' ∧
          scratchHash wcSHA1 n = scratchHash wcSHA1 n' := by
  have hself : ∀ {n n' : Treenode}, faces keyCmp n = faces keyCmp n' → n.face = n'.face :=
    fun h => Option.some.inj (congrFun h [])
  refine Treenode.induct ?_ ?_ ?_ ?_ ?_
  · intro n' _ _ h
    cases n' <;> cases hself h
    exact ⟨rfl, rfl⟩
  · intro b n' _ _ h
    cases n' <;> cases hself h
    exact ⟨rfl, rfl⟩
  · intro d hash n' _ _ h
    cases n' <;> cases hself h
    exact ⟨rfl, rfl⟩
  · intro s hash n' _ _ h
    cases n' <;> cases hself h
    exact ⟨rfl, rfl⟩
  · intro t hash ih n' hn hn' h
    obtain ⟨t', hash', rfl⟩ := face_eq_object (hself h).symm
    have hc := hn.childrenOk
    have hc' := hn'.childrenOk
    -- the children under one key have the same map, so the induction applies to them
    have hchild : ∀ key, (avlFind keyCmp key t).map
          (fun n => ((n.isNull, treenodeToJson g16 n), scratchHash wcSHA1 n)) =
        (avlFind keyCmp key t').map
          fun n => ((n.isNull, treenodeToJson g16 n), scratchHash wcSHA1 n) := by
      intro key
      have hkey : ∀ path, (avlFind keyCmp key t).bind (fun n => faces keyCmp n path) =
          (avlFind keyCmp key t').bind fun n => faces keyCmp n path := by
        intro path
        rw [← faces_cons key path t hash, h, faces_cons]
      rcases bind_faces_cases hkey with ⟨hfind, hfind'⟩ | ⟨n, n', hfind, hfind', hfaces⟩
      · rw [hfind, hfind']
      · have hmem := (avlFind_eq_some_iff hc.ordered).mp hfind
        have hmem' := (avlFind_eq_some_iff hc'.ordered).mp hfind'
        obtain ⟨htext, hhash⟩ := ih _ hmem n' (hc.all _ hmem) (hc'.all _ hmem') hfaces
        have hnull : n.isNull = n'.isNull := by
          rw [Bool.eq_iff_iff, isNull_iff_face, isNull_iff_face, hself hfaces]
        rw [hfind, hfind', Option.map_some, Option.map_some, htext, hhash, hnull]
    have hlevel := map_toList_congr hc.ordered hc'.ordered hchild
    have hshown : t.toList.map (shownEntry g16) = t'.toList.map (shownEntry g16) := by
      have hshow := congrArg (List.map fun e => (e.1, e.2.1)) hlevel
      rw [List.map_map, List.map_map] at hshow
      exact hshow
    have hread : readings (scratchHash wcSHA1) t = readings (scratchHash wcSHA1) t' := by
      have hhash := congrArg (List.filterMap fun e => e.2.2.map fun c => (e.1, c)) hlevel
      rw [List.filterMap_map, List.filterMap_map] at hhash
      exact hhash
    constructor
    · rw [treenodeToJson, treenodeToJson, childrenToJson_eq, childrenToJson_eq, hshown]
    · rw [scratchHash, scratchHash, childrenText_eq, childrenText_eq, hread]

theorem observed_of_faces (g16 : DoubleBits → Bytes) {root root' : Treenode}
    (h : root.Forall (NodeOk wcSHA1 keyCmp)) (h' : root'.Forall (NodeOk wcSHA1 keyCmp))
    (hfaces : faces keyCmp root = faces keyCmp root') (path : Path) :
    observed wcSHA1 g16 keyCmp path root = observed wcSHA1 g16 keyCmp path root' := by
  have hbelow : ∀ rest, (dataCacheGetR keyCmp path root).bind (fun n => faces keyCmp n rest) =
      (dataCacheGetR keyCmp path root').bind fun n => faces keyCmp n rest := by
    intro rest
    rw [← faces_append, hfaces, faces_append]
  rw [observed, observed]
  rcases bind_faces_cases hbelow with ⟨hget, hget'⟩ | ⟨n, n', hget, hget', hfaces⟩
  · rw [hget, hget']
  · have hn := forall_get h hget
    have hn' := forall_get h' hget'
    obtain ⟨htext, hhash⟩ := text_and_hash_of_faces g16 n n' hn hn' hfaces
    rw [hget, hget']
    show (treenodeToJson g16 n, (treenodeHashGet wcSHA1 n).2) =
      (treenodeToJson g16 n', (treenodeHashGet wcSHA1 n').2)
    rw [htext, (treenodeHashGet_spec n hn).1, (treenodeHashGet_spec n' hn').1, hhash]

/-- Two caches hold the same value and have the same text and hash at every
path. -/
def SameCache (wcSHA1 : SHA1) (g16 : DoubleBits → Bytes) (keyCmp : Key → Key → Ordering)
    (root root' : Treenode) : Prop :=
  ∀ path, faces keyCmp root path = faces keyCmp root' path ∧
    observed wcSHA1 g16 keyCmp path root = observed wcSHA1 g16 keyCmp path root'

theorem sameCache_iff (g16 : DoubleBits → Bytes) {root root' : Treenode}
    (h : root.Forall (NodeOk wcSHA1 keyCmp)) (h' : root'.Forall (NodeOk wcSHA1 keyCmp)) :
    SameCache wcSHA1 g16 keyCmp root root' ↔ faces keyCmp root = faces keyCmp root' := by
  constructor
  · exact fun hsame => funext fun path => (hsame path).1
  · exact fun hfaces path => ⟨congrFun hfaces path, observed_of_faces g16 h h' hfaces path⟩

/-! ### Writes -/

omit [TransCmp keyCmp] [LawfulEqCmp keyCmp] in
/-- Only objects have anything below them. -/
theorem faces_above {root : Treenode} {path q : Path} (h : faces keyCmp root path = some .object)
    (hq : q <+: path) : faces keyCmp root q = some .object := by
  obtain ⟨rest, rfl⟩ := hq
  rw [faces_append] at h
  obtain ⟨n, hget, hrest⟩ := Option.bind_eq_some_iff.mp h
  rw [faces, hget, Option.map_some]
  rcases eq_or_ne rest [] with rfl | hne
  · exact hrest
  · by_contra hface
    rw [faces_leaf (fun heq => hface (by rw [heq])) hne] at hrest
    cases hrest

omit [TransCmp keyCmp] [LawfulEqCmp keyCmp] in
theorem faces_absent {root : Treenode} {path : Path} (h : faces keyCmp root path = none)
    (rest : Path) : faces keyCmp root (path ++ rest) = none := by
  have hget : dataCacheGetR keyCmp path root = none := Option.map_eq_none_iff.mp h
  rw [faces_append, hget]
  rfl

omit [TransCmp keyCmp] [LawfulEqCmp keyCmp] in
theorem faces_eq_object_iff {root : Treenode} {path : Path} :
    faces keyCmp root path = some .object ↔
      ∃ t hash, dataCacheGetR keyCmp path root = some (.internal t hash) := by
  rw [faces, Option.map_eq_some_iff]
  constructor
  · rintro ⟨n, hget, hface⟩
    obtain ⟨t, hash, rfl⟩ := face_eq_object hface
    exact ⟨t, hash, hget⟩
  · rintro ⟨t, hash, hget⟩
    exact ⟨_, hget, rfl⟩

omit [TransCmp keyCmp] [LawfulEqCmp keyCmp] in
/-- Where there is an object, there is no path to make. -/
theorem mkdir_faces_iff {root : Treenode} {path : Path} :
    PathMap.mkdir .object path (faces keyCmp root) = faces keyCmp root ↔
      faces keyCmp root path = some .object := by
  constructor
  · intro h
    rw [← h, PathMap.mkdir, if_pos List.prefix_rfl]
  · intro h
    funext q
    rw [PathMap.mkdir]
    split
    next hq => exact (faces_above h hq).symm
    next => rfl

theorem faces_dataCacheMkpathW (path : Path) {root : Treenode}
    (h : root.Forall (NodeOk wcSHA1 keyCmp)) :
    faces keyCmp (dataCacheMkpathW keyCmp path true false root) =
      .mkdir .object path (faces keyCmp root) := by
  funext q
  rw [PathMap.mkdir]
  split
  next hq =>
    obtain ⟨t, hget⟩ := get_dataCacheMkpathW_self path h
    exact faces_above (faces_eq_object_iff.mpr ⟨t, none, hget⟩) hq
  next hq => rw [faces, faces, get_dataCacheMkpathW h hq]

/-- A value stored under a node is grafted in. -/
theorem faces_storeUnder {parent : Path} (key : Key) (x : Json) {n : Treenode}
    (hn : n.Forall (NodeOk wcSHA1 keyCmp)) (hparent : faces keyCmp n parent = some .object) :
    faces keyCmp (updateNode keyCmp (Treenode.mapChildren fun t =>
        dataCacheSetR keyCmp key (avlRemove keyCmp key t) x) parent n) =
      .graft .object (parent ++ [key]) (childFaces keyCmp x) (faces keyCmp n) := by
  obtain ⟨t, hash, hget⟩ := faces_eq_object_iff.mp hparent
  have ht := (forall_get hn hget).childrenOk
  set after := updateNode keyCmp (Treenode.mapChildren fun t =>
    dataCacheSetR keyCmp key (avlRemove keyCmp key t) x) parent n with hafter
  have hself : dataCacheGetR keyCmp parent after =
      some (.internal (dataCacheSetR keyCmp key (avlRemove keyCmp key t) x) hash) := by
    rw [hafter, get_updateNode_self, hget]
    rfl
  funext q
  by_cases hbelow : parent ++ [key] <+: q
  · obtain ⟨rest, rfl⟩ := hbelow
    rw [PathMap.graft_append, List.append_assoc, faces_append, hself, Option.bind_some,
      List.singleton_append, faces_cons, avlFind_dataCacheSetR_self ht.ordered]
    rfl
  by_cases habove : q <+: parent ++ [key]
  · have hne : q ≠ parent ++ [key] := fun heq => hbelow (heq ▸ List.prefix_rfl)
    rw [PathMap.graft_above habove hne]
    rcases List.prefix_concat_iff.mp habove with heq | hq
    · exact absurd heq hne
    · exact faces_above (faces_eq_object_iff.mpr ⟨_, _, hself⟩) hq
  · rw [PathMap.graft_off hbelow habove, faces, faces, hafter, get_updateNode _ n q hn]
    · exact fun hrel => hrel.elim habove hbelow
    · intro t q ht hq
      rw [avlFind_dataCacheSetR_of_ne (ordered_avlRemove ht _) x hq, avlFind_avlRemove_of_ne ht hq]

/-- **`data_cache_set_ex` grafts the value of the document at its path.** -/
theorem faces_dataCacheSetEx {path : Path} (hpath : path ≠ []) (x : Json) {root : Treenode}
    (h : root.Forall (NodeOk wcSHA1 keyCmp)) :
    faces keyCmp (dataCacheSetEx keyCmp path x root) =
      .graft .object path (childFaces keyCmp x) (faces keyCmp root) := by
  have hsplit : path.dropLast ++ [path.getLastD []] = path := by
    rw [List.getLastD_eq_getLast?, List.getLast?_eq_some_getLast hpath]
    exact List.dropLast_append_getLast hpath
  have hmk := (dataCacheMkpathW_ok path.dropLast h).1
  have hmade := faces_dataCacheMkpathW path.dropLast h
  have hparent : faces keyCmp (dataCacheMkpathW keyCmp path.dropLast true false root)
      path.dropLast = some .object := by
    rw [hmade, PathMap.mkdir, if_pos List.prefix_rfl]
  rw [dataCacheSetEx, if_neg hpath, setUnderParent, faces_storeUnder _ x hmk hparent, hsplit, hmade,
    PathMap.graft_mkdir (List.dropLast_prefix path)]

end Faces

end WebcomSdk.Cache

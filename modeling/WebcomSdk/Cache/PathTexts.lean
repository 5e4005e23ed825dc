import WebcomSdk.Cache.DataCache
import WebcomSdk.Datasync.PathOffsets

/-!
The operations of the cache that take the text of a path, with the text read as
the parser reads it: through 16-bit offsets into a copy that it overwrites. On
texts of at most 64 KiB they are the operations of `DataCache`.
-/

namespace WebcomSdk.Cache

open WebcomSdk.Datasync

open PathBuffer (uint16Size wcDatasyncPathNew wcDatasyncPathNew_short)

section Functions

variable (keyCmp : Key → Key → Ordering)

/-- `data_cache_get`. -/
def dataCacheGetText (path : Bytes) (root : Treenode) : Option Treenode :=
  dataCacheGetR keyCmp (wcDatasyncPathNew path) root

/-- `data_cache_set`. -/
def dataCacheSetText (path : Bytes) (json : Json) (root : Treenode) : Treenode :=
  dataCacheSetEx keyCmp (wcDatasyncPathNew path) json root

/-- `data_cache_merge`. -/
def dataCacheMergeText (path : Bytes) (json : Json) (root : Treenode) : Treenode :=
  match json with
  | .object members =>
      members.foldl (fun root (key, val) =>
        dataCacheSetEx keyCmp (wcDatasyncPathNew (mergePath path key)) val root) root
  | _ => root

end Functions

/-! ### Short texts -/

/-- The texts that a merge at `path` makes have at most 64 KiB. -/
structure MergeFits (path : Bytes) (members : List (Key × Json)) : Prop where
  noNul : 0 ∉ path
  names : ∀ m ∈ members, 0 ∉ m.1
  length : path.length + 1 + wcDsMaxPathElementLen ≤ uint16Size

section Short

variable {keyCmp : Key → Key → Ordering} {path : Bytes} {members : List (Key × Json)}

theorem MergeFits.path_eq (h : MergeFits path members) :
    wcDatasyncPathNew path = wcDatasyncPathParse path := by
  have hlen := h.length
  exact wcDatasyncPathNew_short h.noNul (by omega)

theorem MergeFits.perm (h : MergeFits path members) {members' : List (Key × Json)}
    (hperm : members.Perm members') : MergeFits path members' where
  noNul := h.noNul
  names := fun m hm => h.names m (hperm.mem_iff.mpr hm)
  length := h.length

theorem MergeFits.mergePath_eq (h : MergeFits path members) {m : Key × Json} (hm : m ∈ members) :
    wcDatasyncPathNew (mergePath path m.1) = wcDatasyncPathParse (mergePath path m.1) := by
  apply wcDatasyncPathNew_short
  · intro hmem
    rcases List.mem_append.mp (List.mem_of_mem_take hmem) with hpath | hname
    · exact h.noNul hpath
    · rcases List.mem_cons.mp hname with hslash | hname
      · exact absurd hslash (by decide)
      · exact h.names m hm hname
  · rw [mergePath, List.length_take]
    exact (Nat.min_le_left _ _).trans h.length

/-- **A merge whose texts are short** writes each member where its text says. -/
theorem MergeFits.merge_eq (h : MergeFits path members) (root : Treenode) :
    dataCacheMergeText keyCmp path (.object members) root =
      dataCacheMerge keyCmp path (.object members) root := by
  have hstep : ∀ m ∈ members, ∀ root : Treenode,
      dataCacheSetEx keyCmp (wcDatasyncPathNew (mergePath path m.1)) m.2 root =
        dataCacheSetEx keyCmp (wcDatasyncPathParse (mergePath path m.1)) m.2 root := by
    intro m hm root
    rw [h.mergePath_eq hm]
  rw [dataCacheMergeText, dataCacheMerge]
  exact List.foldl_ext _ _ _ fun root m hm => hstep m hm root

theorem dataCacheGetText_short (hpath : 0 ∉ path) (hlen : path.length ≤ uint16Size)
    (root : Treenode) : dataCacheGetText keyCmp path root = dataCacheGet keyCmp path root := by
  rw [dataCacheGetText, wcDatasyncPathNew_short hpath hlen, dataCacheGet]

theorem dataCacheSetText_short (hpath : 0 ∉ path) (hlen : path.length ≤ uint16Size) (x : Json)
    (root : Treenode) :
    dataCacheSetText keyCmp path x root = dataCacheSet keyCmp path x root := by
  rw [dataCacheSetText, wcDatasyncPathNew_short hpath hlen, dataCacheSet]

end Short

end WebcomSdk.Cache

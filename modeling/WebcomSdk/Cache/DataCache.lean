import WebcomSdk.Cache.Json

/-!
The data cache of `lib/datasync/cache/treenode_cache.c`, as its root node. The
C code puts a new internal node in place first and fills it through the pointer;
here the finished node is put in place. A path that is given as a text has at most
64 KiB; `PathTexts` has the operations on any text.
-/

namespace WebcomSdk.Cache

open WebcomSdk.Collection WebcomSdk.Datasync

/-- The `type` and `uval` of a leaf. -/
inductive LeafValue where
  | null
  | bool (b : Bool)
  | number (d : DoubleBits)
  | string (s : Bytes)
  deriving Repr, DecidableEq

def LeafValue.node : LeafValue → Treenode
  | .null => .leafNull
  | .bool b => .leafBool b
  | .number d => .leafNumber d none
  | .string s => .leafString s none

def dataCacheNew : Treenode := .leafNull

section Functions

variable (keyCmp : Key → Key → Ordering)

/-! ### Reading -/

def dataCacheGetR : Path → Treenode → Option Treenode
  | [], n => some n
  | key :: path, .internal children _ => (avlFind keyCmp key children).bind (dataCacheGetR path)
  | _ :: _, _ => none

def dataCacheGet (path : Bytes) (root : Treenode) : Option Treenode :=
  dataCacheGetR keyCmp (wcDatasyncPathParse path) root

/-! ### Making a path -/

/-- The loop of `data_cache_mkpath_w` from an internal node on. The node's own
flag has been dealt with. -/
def mkpathFrom (resetHash emptyTarget : Bool) :
    Path → Children → Option TreenodeHash → Treenode
  | [], children, hash => .internal (if emptyTarget then .nil else children) hash
  | key :: path, children, hash =>
      match avlFind keyCmp key children with
      | none =>
          .internal (internalAddNew keyCmp key (mkpathFrom resetHash emptyTarget path .nil none)
            children) hash
      | some (.internal sub subHash) =>
          let cur := mkpathFrom resetHash emptyTarget path sub
            (if resetHash then none else subHash)
          .internal (avlModify keyCmp key (fun _ => cur) children) hash
      | some _ =>
          .internal (internalAddNew keyCmp key (mkpathFrom resetHash emptyTarget path .nil none)
            (avlRemove keyCmp key children)) hash

def dataCacheMkpathW (path : Path) (resetHash emptyTarget : Bool) : Treenode → Treenode
  | .internal children hash =>
      mkpathFrom keyCmp resetHash emptyTarget path children (if resetHash then none else hash)
  | _ => mkpathFrom keyCmp resetHash emptyTarget path .nil none

def dataCacheMkpath (path : Bytes) (root : Treenode) : Treenode :=
  dataCacheMkpathW keyCmp (wcDatasyncPathParse path) true false root

/-- A write through the pointer that `data_cache_get_r` returned. -/
def updateNode (f : Treenode → Treenode) : Path → Treenode → Treenode
  | [], n => f n
  | key :: path, .internal children hash =>
      .internal (avlModify keyCmp key (updateNode f path) children) hash
  | _ :: _, n => n

/-! ### Setting -/

mutual

/-- `data_cache_set_r` below an internal node. -/
def dataCacheSetR (key : Key) (children : Children) : Json → Children
  | .array elements =>
      internalAddNew keyCmp key (.internal (setElements 0 .nil elements) none) children
  | .object members =>
      internalAddNew keyCmp key (.internal (setMembers .nil members) none) children
  | .boolean b => internalAddNew keyCmp key (.leafBool b) children
  | .double d => internalAddNew keyCmp key (.leafNumber d none) children
  | .int i => internalAddNew keyCmp key (.leafNumber (intToDouble i.toInt) none) children
  | .null => avlRemove keyCmp key children
  | .string s => internalAddNew keyCmp key (.leafString s none) children

def setElements (i : ℕ) (children : Children) : List Json → Children
  | [] => children
  | x :: elements => setElements (i + 1) (dataCacheSetR (sidx i) children x) elements

def setMembers (children : Children) : List (Key × Json) → Children
  | [] => children
  | (key, x) :: members => setMembers (dataCacheSetR key children x) members

end

/-- `data_cache_set_r` with no node above: what becomes the root. -/
def dataCacheSetRoot : Json → Treenode
  | .array elements => .internal (setElements keyCmp 0 .nil elements) none
  | .object members => .internal (setMembers keyCmp .nil members) none
  | .boolean b => .leafBool b
  | .double d => .leafNumber d none
  | .int i => .leafNumber (intToDouble i.toInt) none
  | .null => .leafNull
  | .string s => .leafString s none

/-- Makes the path of the parent, then replaces the last part under it. -/
def setUnderParent (path : Path) (set : Key → Children → Children) (root : Treenode) : Treenode :=
  let parent := path.dropLast
  let key := path.getLastD []
  updateNode keyCmp
    (Treenode.mapChildren fun children => set key (avlRemove keyCmp key children)) parent
    (dataCacheMkpathW keyCmp parent true false root)

def dataCacheSetEx (path : Path) (json : Json) (root : Treenode) : Treenode :=
  if path = [] then dataCacheSetRoot keyCmp json
  else setUnderParent keyCmp path (fun key children => dataCacheSetR keyCmp key children json) root

def dataCacheSet (path : Bytes) (json : Json) (root : Treenode) : Treenode :=
  dataCacheSetEx keyCmp (wcDatasyncPathParse path) json root

def dataCacheSetLeaf (path : Bytes) (leaf : LeafValue) (root : Treenode) : Treenode :=
  let path := wcDatasyncPathParse path
  if path = [] then leaf.node
  else setUnderParent keyCmp path (fun key children => internalAddNew keyCmp key leaf.node children)
    root

/-! ### Merging -/

/-- `snprintf(merge_path, …, "%s/%s", path, key)`, which keeps 256 bytes of the
key. -/
def mergePath (path key : Bytes) : Bytes :=
  (path ++ slash :: key).take (path.length + 1 + wcDsMaxPathElementLen)

def dataCacheMerge (path : Bytes) (json : Json) (root : Treenode) : Treenode :=
  match json with
  | .object members =>
      members.foldl (fun root (key, val) =>
        dataCacheSetEx keyCmp (wcDatasyncPathParse (mergePath path key)) val root) root
  | _ => root

/-- `none` is the failed assertion that the document is an object. -/
def dataCacheMergeEx (path : Path) (json : Json) (root : Treenode) : Option Treenode :=
  match json with
  | .object members =>
      if path = [] then some (dataCacheSetRoot keyCmp json)
      else
        some (updateNode keyCmp
          (Treenode.mapChildren fun children => members.foldl (fun children (key, val) =>
            dataCacheSetR keyCmp key (avlRemove keyCmp key children) val) children)
          path (dataCacheMkpathW keyCmp path true false root))
  | _ => none

end Functions

end WebcomSdk.Cache

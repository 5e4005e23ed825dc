import WebcomSdk.Collection.AvlMap
import WebcomSdk.Datasync.Path

/-!
The nodes of the data cache, `lib/datasync/cache/treenode.c`. A node that can
remember its hash carries `some h` when `hash_cached` is set, `h` being what it
has stored, and `none` otherwise. Numbers are the 64-bit patterns of their
doubles. `wc_SHA1` of `lib/sha1.c` is a parameter: the digest of a text.
-/

namespace WebcomSdk.Cache

open WebcomSdk.Collection WebcomSdk.Datasync

/-- The 28 bytes of a `treenode_hash_t`. -/
abbrev TreenodeHash := Bytes

/-- The bits of a C `double`. -/
abbrev DoubleBits := UInt64

abbrev SHA1 := Bytes → Fin 20 → UInt8

inductive Treenode where
  | leafNull
  | leafBool (bool : Bool)
  | leafNumber (number : DoubleBits) (hash : Option TreenodeHash)
  | leafString (str : Bytes) (hash : Option TreenodeHash)
  | internal (children : AvlTree Key Treenode) (hash : Option TreenodeHash)

/-- The children of an internal node, by key. -/
abbrev Children := AvlTree Key Treenode

def Treenode.isNull : Treenode → Bool
  | .leafNull => true
  | _ => false

/-- The hash stored in a node whose `hash_cached` is set. -/
def Treenode.cachedHash : Treenode → Option TreenodeHash
  | .leafNumber _ h | .leafString _ h | .internal _ h => h
  | .leafNull | .leafBool _ => none

/-- The C code asserts that the node is internal. -/
def Treenode.mapChildren (f : Children → Children) : Treenode → Treenode
  | .internal children hash => .internal (f children) hash
  | n => n

/-! ### Text and bytes -/

/-- The bytes of an ASCII text. -/
def ascii (s : String) : Bytes := s.toList.map fun c => c.toNat.toUInt8

def colon : UInt8 := 58

/-- `%016"PRIx64"`. -/
def hexnum (n : UInt64) : Bytes :=
  (List.range 16).map fun i =>
    let digit := (n.toNat >>> (4 * (15 - i))) % 16
    (if digit < 10 then 48 + digit else 87 + digit).toUInt8

/-- The alphabet of `lib/base64.c`. -/
def base : Bytes := ascii "ABCDEFGHIJKLMNOPQRSTUVWXYZabcdefghijklmnopqrstuvwxyz0123456789+/"

def baseAt (i : UInt8) : UInt8 := base.getD i.toNat 0

/-- Three input bytes to four output bytes. -/
def base64Block (a b c : UInt8) : Bytes :=
  [baseAt (a >>> 2), baseAt (((a &&& 3) <<< 4) ||| ((b &&& 0xf0) >>> 4)),
    baseAt (((b &&& 0xf) <<< 2) ||| ((c &&& 0xc0) >>> 6)), baseAt (c &&& 0x3f)]

def base64Enc20 (digest : Fin 20 → UInt8) : TreenodeHash :=
  base64Block (digest 0) (digest 1) (digest 2) ++ base64Block (digest 3) (digest 4) (digest 5) ++
  base64Block (digest 6) (digest 7) (digest 8) ++
  base64Block (digest 9) (digest 10) (digest 11) ++
  base64Block (digest 12) (digest 13) (digest 14) ++
  base64Block (digest 15) (digest 16) (digest 17) ++
  [baseAt (digest 18 >>> 2), baseAt (((digest 18 &&& 3) <<< 4) ||| ((digest 19 &&& 0xf0) >>> 4)),
    baseAt ((digest 19 &&& 0xf) <<< 2), 61]

/-! ### Hashes -/

/-- `bool_hash`. -/
def boolHash : Bool → TreenodeHash
  | false => ascii "aSSNoqcS4oQwJ2xxH20rvpp3zP0="
  | true => ascii "E5z61QM0lN/U2WsOnusszCTkR8M="

def nullHash : TreenodeHash := List.replicate 28 0

def treenodeHashIsNull : Option TreenodeHash → Bool
  | none => true
  | some h => h == nullHash

def treenodeHashEq (h1 h2 : Option TreenodeHash) : Bool :=
  if treenodeHashIsNull h1 && treenodeHashIsNull h2 then true
  else
    match h1, h2 with
    | some b1, some b2 => b1 == b2
    | _, _ => false

/-- What `treenode_hash_copy` writes. -/
def treenodeHashCopy : Option TreenodeHash → TreenodeHash
  | none => nullHash
  | some h => h

/-- Two hashes are equal when their copies are. -/
theorem treenodeHashEq_iff {a b : Option TreenodeHash} :
    treenodeHashEq a b = true ↔ treenodeHashCopy a = treenodeHashCopy b := by
  cases a with
  | none =>
      cases b with
      | none => simp [treenodeHashEq, treenodeHashIsNull]
      | some h =>
          have hnull : treenodeHashEq none (some h) = (h == nullHash) := by
            cases hh : h == nullHash <;> simp [treenodeHashEq, treenodeHashIsNull, hh]
          rw [hnull, beq_iff_eq]
          exact eq_comm
  | some g =>
      cases b with
      | none => simp [treenodeHashEq, treenodeHashIsNull, treenodeHashCopy]
      | some h =>
          rw [treenodeHashEq]
          split
          next hnull =>
            have hboth : g = nullHash ∧ h = nullHash := by simpa [treenodeHashIsNull] using hnull
            simp [treenodeHashCopy, hboth]
          next => exact beq_iff_eq

section Hash

variable (wcSHA1 : SHA1)

/-- The end of `treenode_hash`: the digest of all that was fed, in base 64. -/
def textHash (text : Bytes) : TreenodeHash := base64Enc20 (wcSHA1 text)

def numberText (number : DoubleBits) : Bytes := ascii "number:" ++ hexnum number

def stringText (str : Bytes) : Bytes := ascii "string:" ++ str

/-- What a child that is not null adds to the text of its parent. -/
def childText (key : Key) (hash : TreenodeHash) : Bytes := colon :: key ++ colon :: hash

mutual

/-- `treenode_hash_get`: the node with the hashes it has cached, and the hash
returned. -/
def treenodeHashGet : Treenode → Treenode × Option TreenodeHash
  | .leafNull => (.leafNull, none)
  | .leafBool b => (.leafBool b, some (boolHash b))
  | .leafNumber d none =>
      let h := textHash wcSHA1 (numberText d)
      (.leafNumber d (some h), some h)
  | .leafString s none =>
      let h := textHash wcSHA1 (stringText s)
      (.leafString s (some h), some h)
  | .internal children none =>
      let (children, text) := hashChildren children
      let h := textHash wcSHA1 text
      (.internal children (some h), some h)
  | .leafNumber d (some h) => (.leafNumber d (some h), some h)
  | .leafString s (some h) => (.leafString s (some h), some h)
  | .internal children (some h) => (.internal children (some h), some h)

/-- The loop of `treenode_hash` over the children of an internal node. -/
def hashChildren : Children → Children × Bytes
  | .nil => (.nil, [])
  | .node l k n r height =>
      let (l, textl) := hashChildren l
      let (n, h) := treenodeHashGet n
      let (r, textr) := hashChildren r
      let text := match h with
        | some h => childText k h
        | none => []
      (.node l k n r height, textl ++ text ++ textr)

end

mutual

/-- The hash computed from scratch, whatever is cached. -/
def scratchHash : Treenode → Option TreenodeHash
  | .leafNull => none
  | .leafBool b => some (boolHash b)
  | .leafNumber d _ => some (textHash wcSHA1 (numberText d))
  | .leafString s _ => some (textHash wcSHA1 (stringText s))
  | .internal children _ => some (textHash wcSHA1 (childrenText children))

def childrenText : Children → Bytes
  | .nil => []
  | .node l k n r _ =>
      childrenText l ++ (match scratchHash n with
        | some h => childText k h
        | none => []) ++ childrenText r

end

end Hash

/-! ### Copies -/

mutual

/-- `internal_element_copy`: a deep copy, its flags cleared and the children of
an internal node inserted one by one in a new tree. -/
def treenodeCopy (cmp : Key → Key → Ordering) : Treenode → Treenode
  | .leafNull => .leafNull
  | .leafBool b => .leafBool b
  | .leafNumber d _ => .leafNumber d none
  | .leafString s _ => .leafString s none
  | .internal children _ => .internal (copyChildren cmp children .nil) none

def copyChildren (cmp : Key → Key → Ordering) : Children → Children → Children
  | .nil, into => into
  | .node l k n r _, into =>
      let into := copyChildren cmp l into
      let into := (avlInsert cmp k (treenodeCopy cmp n) into).getD into
      copyChildren cmp r into

end

/-! ### Children -/

/-- `internal_add_new_*`: nothing happens when the key is there. -/
def internalAddNew (cmp : Key → Key → Ordering) (key : Key) (node : Treenode)
    (children : Children) : Children :=
  (avlInsert cmp key node children).getD children

/-- `internal_add`, which inserts a deep copy. -/
def internalAdd (cmp : Key → Key → Ordering) (key : Key) (node : Treenode)
    (children : Children) : Children :=
  internalAddNew cmp key (treenodeCopy cmp node) children

section Children

open Std

variable {keyCmp : Key → Key → Ordering} {t : Children}

theorem internalAddNew_of_find_some {key : Key} (node : Treenode) {n : Treenode}
    (h : avlFind keyCmp key t = some n) : internalAddNew keyCmp key node t = t := by
  rw [avlFind, Option.map_eq_some_iff] at h
  obtain ⟨e, he, -⟩ := h
  simp [internalAddNew, avlInsert, he]

theorem internalAddNew_of_find_none {key : Key} (node : Treenode)
    (h : avlFind keyCmp key t = none) :
    internalAddNew keyCmp key node t = avlInsertRec keyCmp key node t := by
  have hget : avlGet keyCmp key t = none := Option.map_eq_none_iff.mp h
  simp [internalAddNew, avlInsert, hget]

theorem ordered_internalAddNew [TransCmp keyCmp] (ht : t.Ordered keyCmp) (key : Key)
    (node : Treenode) :
    (internalAddNew keyCmp key node t).Ordered keyCmp := by
  cases h : avlFind keyCmp key t with
  | some n => rwa [internalAddNew_of_find_some node h]
  | none =>
      rw [internalAddNew_of_find_none node h]
      exact ordered_avlInsertRec ht node (Option.map_eq_none_iff.mp h)

theorem mem_of_mem_internalAddNew {key : Key} {node : Treenode} {e : Key × Treenode}
    (h : e ∈ (internalAddNew keyCmp key node t).toList) : e = (key, node) ∨ e ∈ t.toList := by
  cases hfind : avlFind keyCmp key t with
  | some n =>
      rw [internalAddNew_of_find_some node hfind] at h
      exact .inr h
  | none =>
      rw [internalAddNew_of_find_none node hfind] at h
      exact (mem_avlInsertRec key node t).mp h

theorem avlFind_internalAddNew [TransCmp keyCmp] [LawfulEqCmp keyCmp] (ht : t.Ordered keyCmp)
    {key : Key} (node : Treenode) (hnew : avlFind keyCmp key t = none) (q : Key) :
    avlFind keyCmp q (internalAddNew keyCmp key node t) =
      if q = key then some node else avlFind keyCmp q t := by
  rw [internalAddNew_of_find_none node hnew, avlFind_avlInsertRec ht node hnew]
  simp only [LawfulEqCmp.compare_eq_iff_eq]

end Children

end WebcomSdk.Cache

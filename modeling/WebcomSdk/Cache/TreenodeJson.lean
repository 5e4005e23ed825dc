import WebcomSdk.Cache.DataCache

/-!
Trees and JSON texts: `treenode_from_json` and `treenode_to_json` of
`lib/datasync/cache/treenode.c`. The conversion `"%.16g"` of the C library is a
parameter of the second one.
-/

namespace WebcomSdk.Cache

open WebcomSdk.Collection WebcomSdk.Datasync

/-! ### From JSON -/

section FromJson

variable (keyCmp : Key → Key → Ordering)

mutual

/-- A boolean becomes a null node, and an integer is read with the 32-bit
accessor. -/
def treenodeFromJsonR : Json → Treenode
  | .array elements => .internal (fromElements 0 .nil elements) none
  | .boolean _ => .leafNull
  | .double d => .leafNumber d none
  | .int i => .leafNumber (intToDouble (jsonObjectGetInt i)) none
  | .null => .leafNull
  | .object members => .internal (fromMembers .nil members) none
  | .string s => .leafString s none

def fromElements (i : ℕ) (children : Children) : List Json → Children
  | [] => children
  | x :: elements =>
      fromElements (i + 1) (internalAdd keyCmp (sidx i) (treenodeFromJsonR x) children) elements

def fromMembers (children : Children) : List (Key × Json) → Children
  | [] => children
  | (key, x) :: members =>
      fromMembers (internalAdd keyCmp key (treenodeFromJsonR x) children) members

end

end FromJson

/-! ### To JSON -/

/-- What `json_escape_str` writes. -/
def jsonEscapeStr (raw : Bytes) : Bytes :=
  34 :: (raw.flatMap fun c =>
    if c = 34 then [92, 34]
    else if c = 92 then [92, 92]
    else if c = 8 then ascii "\\b"
    else if c = 12 then ascii "\\f"
    else if c = 10 then ascii "\\n"
    else if c = 13 then ascii "\\r"
    else if c = 9 then ascii "\\t"
    else if c ≤ 0x1f then ascii "\\u" ++ (hexnum c.toUInt64).drop 12
    else [c]) ++ [34]

mutual

/-- The text of a tree: what `treenode_to_json` writes while the counts that it
adds to its pointer are in the range of an `int`. -/
def treenodeToJson (g16 : DoubleBits → Bytes) : Treenode → Bytes
  | .leafBool b => ascii (if b then "true" else "false")
  | .leafNull => ascii "null"
  | .leafNumber d _ => g16 d
  | .leafString s _ => jsonEscapeStr s
  | .internal children _ => ascii "\x7b" ++ childrenToJson g16 false children ++ ascii "\x7d"

/-- The loop over the children. `hasNext` says that entries follow the last of
these: a comma is written after an entry whenever the iterator has a next one,
null or not. -/
def childrenToJson (g16 : DoubleBits → Bytes) (hasNext : Bool) : Children → Bytes
  | .nil => []
  | .node l k n r _ =>
      let text :=
        if n.isNull then []
        else jsonEscapeStr k ++ colon :: treenodeToJson g16 n ++
          (if hasNext || r.size > 0 then [44] else [])
      childrenToJson g16 true l ++ text ++ childrenToJson g16 hasNext r

end

/-! ### Without the null children -/

mutual

/-- The tree with the null children dropped, at every level, and the flags
cleared. -/
def dropNulls (keyCmp : Key → Key → Ordering) : Treenode → Treenode
  | .leafNull => .leafNull
  | .leafBool b => .leafBool b
  | .leafNumber d _ => .leafNumber d none
  | .leafString s _ => .leafString s none
  | .internal children _ => .internal (dropNullChildren keyCmp children .nil) none

def dropNullChildren (keyCmp : Key → Key → Ordering) : Children → Children → Children
  | .nil, into => into
  | .node l k n r _, into =>
      let into := dropNullChildren keyCmp l into
      let into := if n.isNull then into else internalAddNew keyCmp k (dropNulls keyCmp n) into
      dropNullChildren keyCmp r into

end

end WebcomSdk.Cache

import WebcomSdk.Datasync.PathOffsets

/-!
The two hashes of a path: `wc_str_path_hash` of `lib/hash.c` reads the text,
`wc_datasync_path_hash` of `lib/datasync/path.c` the parts that the parser has
found in it. A `wc_hash_t` is 64 bits wide.
-/

namespace WebcomSdk.Datasync.PathHash

open PathBuffer

/-- `((hash << 5) + hash) + c`. -/
def djb2Step (hash : UInt64) (c : UInt8) : UInt64 := ((hash <<< 5) + hash) + c.toUInt64

def wcDjb2HashUpdate : Bytes → UInt64 → UInt64
  | [], hash => hash
  | c :: str, hash => wcDjb2HashUpdate str (djb2Step hash c)

def wcDatasyncPathHash (path : WcDsPath) : UInt64 :=
  (List.range (wcDatasyncPathGetPartCount path)).foldl
    (fun hash i => djb2Step (wcDjb2HashUpdate (wcDatasyncPathGetPart path i) hash) slash)
    (djb2Step 5381 slash)

/-- The text that is left, and the hash. -/
def wcStrPathHashUpdate : Bytes → UInt64 → Bytes × UInt64
  | [], hash => ([], djb2Step hash slash)
  | c :: str, hash =>
      if c = slash then (c :: str, djb2Step hash slash)
      else wcStrPathHashUpdate str (djb2Step hash c)

theorem length_wcStrPathHashUpdate_le (str : Bytes) (hash : UInt64) :
    (wcStrPathHashUpdate str hash).1.length ≤ str.length := by
  induction str generalizing hash with
  | nil => exact Nat.le_refl 0
  | cons c str ih =>
      rw [wcStrPathHashUpdate]
      split
      · exact Nat.le_refl _
      · exact (ih _).trans (Nat.le_succ _)

theorem wcStrPathHashUpdate_cons {c : UInt8} (hc : c ≠ slash) (str : Bytes) (hash : UInt64) :
    wcStrPathHashUpdate (c :: str) hash = wcStrPathHashUpdate str (djb2Step hash c) := by
  rw [wcStrPathHashUpdate, if_neg hc]

/-- The loops of `wc_str_path_hash`, from some place of the text on: slashes are
skipped one by one, and a part is read as a whole. -/
def wcStrPathHashFrom : Bytes → UInt64 → UInt64
  | [], hash => hash
  | c :: path, hash =>
      if _hc : c = slash then wcStrPathHashFrom path hash
      else
        let read := wcStrPathHashUpdate (c :: path) hash
        wcStrPathHashFrom read.1 read.2
  termination_by path => path.length
  decreasing_by
    · exact Nat.lt_succ_self _
    · rw [wcStrPathHashUpdate_cons _hc]
      exact Nat.lt_succ_of_le (length_wcStrPathHashUpdate_le _ _)

/-- 177620 is the hash of `/`. -/
def wcStrPathHash (path : Bytes) : UInt64 := wcStrPathHashFrom path 177620

/-! ### Both are hashes of the parts -/

/-- The hash of a part and of the slash after it. -/
def partHash (hash : UInt64) (part : Key) : UInt64 := djb2Step (wcDjb2HashUpdate part hash) slash

theorem wcDatasyncPathHash_eq (path : WcDsPath) :
    wcDatasyncPathHash path = (parts path).foldl partHash (djb2Step 5381 slash) := by
  rw [parts, List.foldl_map]
  rfl

theorem wcDjb2HashUpdate_append (s t : Bytes) (hash : UInt64) :
    wcDjb2HashUpdate (s ++ t) hash = wcDjb2HashUpdate t (wcDjb2HashUpdate s hash) := by
  induction s generalizing hash with
  | nil => rfl
  | cons c s ih => exact ih _

/-- What is left of a text when the part that is being read is over. -/
theorem foldl_components {part : Key} (hpart : part ≠ []) (s : Bytes) (hash : UInt64) :
    (components part s).foldl partHash hash =
      (components [] (wcStrPathHashUpdate s (wcDjb2HashUpdate part hash)).1).foldl partHash
        (wcStrPathHashUpdate s (wcDjb2HashUpdate part hash)).2 := by
  induction s generalizing part with
  | nil =>
      obtain ⟨b, part, rfl⟩ := List.exists_cons_of_ne_nil hpart
      rfl
  | cons c s ih =>
      obtain ⟨b, part, rfl⟩ := List.exists_cons_of_ne_nil hpart
      rw [components, wcStrPathHashUpdate]
      split
      next hc =>
        -- the slash stays in the text, and the parser skips it
        rw [List.foldl_cons, components, if_pos hc]
        rfl
      next =>
        rw [ih (List.append_ne_nil_of_left_ne_nil (List.cons_ne_nil b part) [c]),
          wcDjb2HashUpdate_append]
        rfl

theorem wcStrPathHashFrom_eq (path : Bytes) (hash : UInt64) :
    wcStrPathHashFrom path hash = (components [] path).foldl partHash hash := by
  induction path, hash using wcStrPathHashFrom.induct with
  | case1 hash =>
      rw [wcStrPathHashFrom]
      rfl
  | case2 path hash ih =>
      rw [wcStrPathHashFrom, dif_pos rfl, ih, components, if_pos rfl]
  | case3 c path hash hc read ih =>
      have hread : read = wcStrPathHashUpdate path (wcDjb2HashUpdate [c] hash) :=
        wcStrPathHashUpdate_cons hc path hash
      rw [wcStrPathHashFrom, dif_neg hc, components, if_neg hc,
        foldl_components (List.cons_ne_nil c []), ← hread]
      exact ih

/-- The text is hashed as all its parts, however many there are. -/
theorem wcStrPathHash_eq (path : Bytes) :
    wcStrPathHash path = (components [] path).foldl partHash (djb2Step 5381 slash) :=
  wcStrPathHashFrom_eq path 177620

theorem parts_eq_components (s : Bytes) :
    (s.splitOn slash).filter (· ≠ []) = components [] s := by
  have h := splitOn_append List.not_mem_nil 0 s
  rw [List.nil_append] at h
  rw [h, components_eq 0]

/-- **The two hashes agree** on a text whose parts the parser can keep. -/
theorem wcStrPathHash_eq_wcDatasyncPathHash {s : Bytes} (hnul : 0 ∉ s)
    (hlen : s.length < uint16Size)
    (hdepth : ((s.splitOn slash).filter (· ≠ [])).length ≤ wcDsMaxDepth) :
    ∃ fuel path, PathBuffer.wcDatasyncPathParse fuel s = some path ∧
      wcStrPathHash s = wcDatasyncPathHash path := by
  obtain ⟨fuel, path, hparse, hparts⟩ := parse_short hnul hlen.le
  refine ⟨fuel, path, hparse, ?_⟩
  rw [parts_eq_components] at hdepth
  rw [Datasync.wcDatasyncPathParse, pathScan_eq_take, List.take_of_length_le hdepth] at hparts
  rw [wcStrPathHash_eq, wcDatasyncPathHash_eq, hparts]

/-- `//a/b/`. -/
theorem wcStrPathHash_slashes :
    ∃ fuel path, PathBuffer.wcDatasyncPathParse fuel [47, 47, 97, 47, 98, 47] = some path ∧
      wcStrPathHash [47, 47, 97, 47, 98, 47] = wcDatasyncPathHash path :=
  wcStrPathHash_eq_wcDatasyncPathHash (by decide) (by decide) (by decide +kernel)

end WebcomSdk.Datasync.PathHash

import WebcomSdk.Lib.LexPrefix

/-!
Paths of `lib/datasync/path.c`. A parsed path is the list of its parts; the
normalised text and the 16-bit offsets into the buffer are another view of the
same list, as long as the text has at most 64 KiB. The order of two keys,
`wc_datasync_key_cmp`, is a parameter here.
-/

namespace WebcomSdk.Datasync

open WebcomSdk.Lib Std

/-- A C string, without its terminating NUL. -/
abbrev Bytes := List UInt8

abbrev Key := Bytes

/-- The parts of a `wc_ds_path_t`. -/
abbrev Path := List Key

/-- `'/'`. -/
def slash : UInt8 := 47

def wcDsMaxDepth : ℕ := 32

def wcDsMaxPathElementLen : ℕ := 256

/-- The loop of `wc_datasync_path_parse`: `n` more parts fit, and `part` is the
part being read. It is empty in the parser state 0 (`init`) and holds at least
one byte in the state 1 (`inside_part`). -/
def pathScan : ℕ → Key → Bytes → Path
  | 0, _, _ => []
  | _ + 1, [], [] => []
  | _ + 1, b :: part, [] => [b :: part]
  | n + 1, [], c :: s => if c = slash then pathScan (n + 1) [] s else pathScan (n + 1) [c] s
  | n + 1, b :: part, c :: s =>
      if c = slash then (b :: part) :: pathScan n [] s
      else pathScan (n + 1) (b :: part ++ [c]) s

/-- The parts of a text of at most 64 KiB: of such a text every offset fits in its
16 bits. `PathBuffer.wcDatasyncPathNew` is what the parser makes of any text. -/
def wcDatasyncPathParse (path : Bytes) : Path := pathScan wcDsMaxDepth [] path

/-- The field `_norm` of the path. -/
def wcDatasyncPathToStr (path : Path) : Bytes :=
  if path = [] then [slash] else path.flatMap fun part => slash :: part

def wcDatasyncPathCmp (keyCmp : Key → Key → Ordering) : Path → Path → Ordering
  | x :: a, y :: b => (keyCmp x y).then (wcDatasyncPathCmp keyCmp a b)
  | a, b => compare a.length b.length

def wcDatasyncPathStartsWith (path pre : Path) : Bool := pre.isPrefixOf path

/-- The byte order of `strcmp`, which `wc_datasync_key_cmp` is on keys that are
not integers. -/
def strcmp : Key → Key → Ordering := List.compareLex compare

instance : TransCmp strcmp := inferInstanceAs (TransCmp (List.compareLex compare))

instance : LawfulEqCmp strcmp := inferInstanceAs (LawfulEqCmp (List.compareLex compare))

/-! ### Parts of a text -/

/-- All the non-empty components of a text, `part` being read already. -/
def components : Key → Bytes → Path
  | [], [] => []
  | b :: part, [] => [b :: part]
  | [], c :: s => if c = slash then components [] s else components [c] s
  | b :: part, c :: s =>
      if c = slash then (b :: part) :: components [] s else components (b :: part ++ [c]) s

theorem pathScan_eq_take (n : ℕ) (part : Key) (s : Bytes) :
    pathScan n part s = (components part s).take n := by
  induction s generalizing n part with
  | nil => cases n <;> cases part <;> simp [pathScan, components]
  | cons c s ih =>
      cases n with
      | zero => simp [pathScan]
      | succ n =>
          cases part with
          | nil =>
              rw [pathScan, components]
              split <;> exact ih _ _
          | cons b part =>
              rw [pathScan, components]
              split
              · rw [List.take_succ_cons, ih]
              · exact ih _ _

theorem components_append_slash (part : Key) (s t : Bytes) :
    components part (s ++ slash :: t) = components part s ++ components [] t := by
  induction s generalizing part with
  | nil => cases part <;> simp [components]
  | cons c s ih =>
      cases part with
      | nil =>
          rw [List.cons_append, components, components]
          split <;> exact ih _
      | cons b part =>
          rw [List.cons_append, components, components]
          split
          · rw [ih, List.cons_append]
          · exact ih _

/-- Appending `/` and anything to a text only appends parts. -/
theorem prefix_pathParse_append (s t : Bytes) :
    wcDatasyncPathParse s <+: wcDatasyncPathParse (s ++ slash :: t) := by
  simp only [wcDatasyncPathParse, pathScan_eq_take, components_append_slash, List.take_append]
  exact List.prefix_append _ _

/-! ### Paths on one line -/

/-- One path starts with the other. -/
def Related (p q : Path) : Prop := q <+: p ∨ p <+: q

instance (p q : Path) : Decidable (Related p q) := inferInstanceAs (Decidable (_ ∨ _))

theorem related_cons {key : Key} {p q : Path} :
    Related (key :: p) (key :: q) ↔ Related p q := by
  simp [Related]

/-- Below a path there is nothing that is not on one line with what is above. -/
theorem not_related_extend {p p' q : Path} (hpre : p <+: p') (h : ¬ Related p q) :
    ¬ Related p' q := by
  rintro (hq | hq)
  · exact h ((List.prefix_or_prefix_of_prefix hpre hq).symm)
  · exact h (.inr (hpre.trans hq))

/-! ### The text of a path -/

/-- What the parts of a parsed path are. -/
def IsPart (part : Key) : Prop := part ≠ [] ∧ slash ∉ part

theorem isPart_of_mem_components {part : Key} (hpart : slash ∉ part) (s : Bytes) {q : Key}
    (hq : q ∈ components part s) : IsPart q := by
  induction s generalizing part with
  | nil =>
      cases part with
      | nil => cases hq
      | cons b part =>
          obtain rfl := List.mem_singleton.mp hq
          exact ⟨List.cons_ne_nil b part, hpart⟩
  | cons c s ih =>
      cases part with
      | nil =>
          rw [components] at hq
          split at hq
          next => exact ih List.not_mem_nil hq
          next hc => exact ih (by simpa using Ne.symm hc) hq
      | cons b part =>
          rw [components] at hq
          split at hq
          next =>
            rcases List.mem_cons.mp hq with rfl | hq
            · exact ⟨List.cons_ne_nil b part, hpart⟩
            · exact ih List.not_mem_nil hq
          next hc =>
            refine ih ?_ hq
            simp only [List.cons_append, List.mem_cons, List.mem_append, not_or] at hpart ⊢
            exact ⟨hpart.1, hpart.2, Ne.symm hc, List.not_mem_nil⟩

theorem components_append_part {acc part : Key} (hacc : acc ≠ []) (hpart : slash ∉ part)
    (s : Bytes) : components acc (part ++ s) = components (acc ++ part) s := by
  induction part generalizing acc with
  | nil => rw [List.nil_append, List.append_nil]
  | cons c part ih =>
      obtain ⟨b, acc, rfl⟩ := List.exists_cons_of_ne_nil hacc
      rw [List.mem_cons, not_or] at hpart
      rw [List.cons_append, components, if_neg (Ne.symm hpart.1), ih (by simp) hpart.2]
      simp

theorem components_part {part : Key} (hpart : IsPart part) (s : Bytes) :
    components [] (part ++ s) = components part s := by
  obtain ⟨b, part, rfl⟩ := List.exists_cons_of_ne_nil hpart.1
  have hslash := hpart.2
  rw [List.mem_cons, not_or] at hslash
  rw [List.cons_append, components, if_neg (Ne.symm hslash.1),
    components_append_part (List.cons_ne_nil b []) hslash.2]
  rfl

theorem components_self {key : Key} (hkey : slash ∉ key) :
    components [] key = if key = [] then [] else [key] := by
  split
  next hnil =>
    subst hnil
    rfl
  next hne =>
    have hpart := components_part ⟨hne, hkey⟩ []
    rw [List.append_nil] at hpart
    rw [hpart]
    obtain ⟨b, key, rfl⟩ := List.exists_cons_of_ne_nil hne
    rfl

theorem components_flatMap {path : Path} (hpath : ∀ part ∈ path, IsPart part) :
    components [] (path.flatMap fun part => slash :: part) = path := by
  induction path with
  | nil => rfl
  | cons part path ih =>
      rw [List.forall_mem_cons] at hpath
      have hend : ∀ (acc : Key) (p : Path), acc ≠ [] →
          components acc (p.flatMap fun part => slash :: part) =
            acc :: components [] (p.flatMap fun part => slash :: part) := by
        intro acc p hacc
        obtain ⟨b, acc, rfl⟩ := List.exists_cons_of_ne_nil hacc
        cases p <;> simp [components]
      rw [List.flatMap_cons, List.cons_append, components, if_pos rfl, components_part hpath.1,
        hend _ _ hpath.1.1, ih hpath.2]

/-- The text of a parsed path is read back as that path. -/
theorem parse_pathToStr (s : Bytes) :
    wcDatasyncPathParse (wcDatasyncPathToStr (wcDatasyncPathParse s)) = wcDatasyncPathParse s := by
  set path := wcDatasyncPathParse s with hpath
  have hscan : path = (components [] s).take wcDsMaxDepth := by
    rw [hpath, wcDatasyncPathParse, pathScan_eq_take]
  have hparts : ∀ part ∈ path, IsPart part := by
    intro part hpart
    rw [hscan] at hpart
    exact isPart_of_mem_components List.not_mem_nil s (List.mem_of_mem_take hpart)
  have hlen : path.length ≤ wcDsMaxDepth := by
    rw [hscan, List.length_take]
    exact Nat.min_le_left _ _
  rw [wcDatasyncPathParse, pathScan_eq_take, wcDatasyncPathToStr]
  split
  next hnil =>
    rw [hnil]
    rfl
  next => rw [components_flatMap hparts, List.take_of_length_le hlen]

/-! ### The order of paths -/

section Order

variable {keyCmp : Key → Key → Ordering}

theorem wcDatasyncPathCmp_eq (a b : Path) :
    wcDatasyncPathCmp keyCmp a b = List.compareLex keyCmp a b := by
  induction a generalizing b with
  | nil => cases b <;> simp [wcDatasyncPathCmp, List.compareLex, Nat.compare_eq_lt]
  | cons x a ih =>
      cases b with
      | nil => simp [wcDatasyncPathCmp, List.compareLex, Nat.compare_eq_gt]
      | cons y b => rw [wcDatasyncPathCmp, List.compareLex_cons_cons, ih]

theorem wcDatasyncPathCmp_eq_compareLex :
    wcDatasyncPathCmp keyCmp = List.compareLex keyCmp := by
  funext a b
  exact wcDatasyncPathCmp_eq a b

instance [TransCmp keyCmp] : TransCmp (wcDatasyncPathCmp keyCmp) :=
  wcDatasyncPathCmp_eq_compareLex ▸ inferInstanceAs (TransCmp (List.compareLex keyCmp))

instance [LawfulEqCmp keyCmp] : LawfulEqCmp (wcDatasyncPathCmp keyCmp) :=
  wcDatasyncPathCmp_eq_compareLex ▸ inferInstanceAs (LawfulEqCmp (List.compareLex keyCmp))

theorem pathCmp_eq_iff [LawfulEqCmp keyCmp] {p q : Path} :
    wcDatasyncPathCmp keyCmp p q = .eq ↔ p = q :=
  LawfulEqCmp.compare_eq_iff_eq

@[simp] theorem wcDatasyncPathStartsWith_iff {path pre : Path} :
    wcDatasyncPathStartsWith path pre = true ↔ pre <+: path := by
  simp [wcDatasyncPathStartsWith]

end Order

end WebcomSdk.Datasync

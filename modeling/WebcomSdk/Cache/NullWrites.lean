import WebcomSdk.Cache.CacheView
import WebcomSdk.Cache.PathTexts

/-!
Nulls pushed where nothing is. A null goes through the code that makes the path
of a value, so it leaves no trace exactly when its parent is an object already:
else objects are made on the way, in the place of a leaf if there is one.
-/

namespace WebcomSdk.Cache

open WebcomSdk.Lib WebcomSdk.Collection WebcomSdk.Datasync Std

open PathBuffer (uint16Size wcDatasyncPathNew wcDatasyncPathNew_short)

/-- A null written at `path` changes no text and no hash. -/
def NullUnseen (wcSHA1 : SHA1) (g16 : DoubleBits → Bytes) (keyCmp : Key → Key → Ordering)
    (path : Bytes) (root : Treenode) : Prop :=
  ∀ q, observed wcSHA1 g16 keyCmp q (dataCacheSetText keyCmp path .null root) =
    observed wcSHA1 g16 keyCmp q root

/-! ### Braces -/

/-- Only the text of an object begins with a brace. -/
theorem head_jsonText_iff {g16 : DoubleBits → Bytes} (hg16 : ∀ d, 123 ∉ g16 d)
    {n : Option Treenode} :
    (jsonText g16 n).head? = some 123 ↔ n.map Treenode.face = some .object := by
  cases n with
  | none =>
      show (ascii "null").head? = some 123 ↔ none = some Face.object
      decide
  | some n =>
      rw [jsonText, Option.map_some]
      cases n with
      | leafNull =>
          rw [treenodeToJson]
          decide
      | leafBool b =>
          rw [treenodeToJson]
          cases b <;> decide
      | leafNumber d hash =>
          rw [treenodeToJson]
          constructor
          · exact fun h => absurd (List.mem_of_head? h) (hg16 d)
          · rintro ⟨⟩
      | leafString s hash =>
          rw [treenodeToJson, jsonEscapeStr_eq]
          constructor <;> rintro ⟨⟩
      | internal t hash =>
          rw [treenodeToJson]
          exact iff_of_true rfl rfl

section NullWrites

variable {wcSHA1 : SHA1} {keyCmp : Key → Key → Ordering} [TransCmp keyCmp] [LawfulEqCmp keyCmp]

theorem faces_null {path : Path} (hpath : path ≠ []) {root : Treenode}
    (h : root.Forall (NodeOk wcSHA1 keyCmp)) :
    faces keyCmp (dataCacheSetEx keyCmp path .null root) =
      .graft .object path (fun _ => none) (faces keyCmp root) :=
  faces_dataCacheSetEx hpath .null h

/-- Under an object there is nothing to make. -/
theorem faces_null_eq {path : Path} {root : Treenode} (h : root.Forall (NodeOk wcSHA1 keyCmp))
    (habsent : dataCacheGetR keyCmp path root = none)
    (hparent : faces keyCmp root path.dropLast = some .object) :
    faces keyCmp (dataCacheSetEx keyCmp path .null root) = faces keyCmp root := by
  have hpath : path ≠ [] := by
    rintro rfl
    cases habsent
  rw [faces_null hpath h]
  funext q
  by_cases hbelow : path <+: q
  · obtain ⟨rest, rfl⟩ := hbelow
    rw [PathMap.graft_append, faces_append, habsent]
    rfl
  by_cases habove : q <+: path
  · have hne : q ≠ path := fun heq => hbelow (heq ▸ List.prefix_rfl)
    have hq : q <+: path.dropLast := by
      rw [← List.dropLast_append_getLast hpath] at habove hne
      exact (List.prefix_concat_iff.mp habove).resolve_left hne
    rw [PathMap.graft_above habove hne, faces_above hparent hq]
  · exact PathMap.graft_off hbelow habove

end NullWrites

end WebcomSdk.Cache

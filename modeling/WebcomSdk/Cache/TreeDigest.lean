import Mathlib.Tactic
import WebcomSdk.Cache.HashText
import WebcomSdk.Hash.Sha1

/-!
`treenode_hash` as it runs: one SHA-1 context for each node, fed piece by piece,
those of the children at work in between. With it the digest of `lib/sha1.c`
takes the place of the parameter.
-/

namespace WebcomSdk.Cache

open WebcomSdk.Lib WebcomSdk.Lib.Sha1 WebcomSdk.Collection WebcomSdk.Datasync WebcomSdk.Hash Std

/-- The twenty bytes at `digest`. -/
def digestBytes (digest : List UInt8) (i : Fin 20) : UInt8 := digest.getD i.val 0

/-- SHA-1 itself. -/
def standardSHA1 : SHA1 := fun text => digestBytes (digest text)

section Run

variable (order : ByteOrder) (ctx : SHA1Ctx)

/-- The end of `treenode_hash`. -/
def finishHash (ctx : SHA1Ctx) : Option TreenodeHash :=
  (wcSHA1Final order ctx).map fun digest => base64Enc20 (digestBytes digest)

/-- What is fed for a child that is not null. -/
def feedChild (key : Key) (childHash : TreenodeHash) (ctx : SHA1Ctx) : Option SHA1Ctx := do
  let ctx ← wcSHA1Update order ctx [colon] 1
  let ctx ← wcSHA1Update order ctx key key.length.toUInt32
  let ctx ← wcSHA1Update order ctx [colon] 1
  wcSHA1Update order ctx childHash 28

mutual

/-- `treenode_hash_get`, with what the local variable `ctx` of `treenode_hash`
holds before it is initialised. -/
def runHashGet : Treenode → Option (Treenode × Option TreenodeHash)
  | .leafNull => some (.leafNull, none)
  | .leafBool b => some (.leafBool b, some (boolHash b))
  | .leafNumber d none => do
      let ctx ← wcSHA1Update order (wcSHA1Init ctx) (ascii "number:") 7
      let ctx ← wcSHA1Update order ctx (hexnum d) 16
      let h ← finishHash order ctx
      return (.leafNumber d (some h), some h)
  | .leafString s none => do
      let ctx ← wcSHA1Update order (wcSHA1Init ctx) (ascii "string:") 7
      let ctx ← wcSHA1Update order ctx s s.length.toUInt32
      let h ← finishHash order ctx
      return (.leafString s (some h), some h)
  | .internal children none => do
      let (children, ctx) ← runHashChildren children (wcSHA1Init ctx)
      let h ← finishHash order ctx
      return (.internal children (some h), some h)
  | .leafNumber d (some h) => some (.leafNumber d (some h), some h)
  | .leafString s (some h) => some (.leafString s (some h), some h)
  | .internal children (some h) => some (.internal children (some h), some h)

/-- The loop over the children. -/
def runHashChildren : Children → SHA1Ctx → Option (Children × SHA1Ctx)
  | .nil, fed => some (.nil, fed)
  | .node l k n r height, fed => do
      let (l, fed) ← runHashChildren l fed
      let (n, h) ← runHashGet n
      let fed ← match h with
        | some h => feedChild order k h fed
        | none => some fed
      let (r, fed) ← runHashChildren r fed
      return (.node l k n r height, fed)

end

end Run

/-- The texts of a node fit in a `uint32_t`, with a block to spare. -/
def NodeFits : Treenode → Prop
  | .leafString s _ => s.length + 63 < 2 ^ 32
  | .internal children _ => ∀ e ∈ children.toList, e.1.length + 63 < 2 ^ 32
  | _ => True

/-- A cached hash is 28 bytes long. -/
def NodeHashed (n : Treenode) : Prop := ∀ h, n.cachedHash = some h → h.length = 28

variable (order : ByteOrder) {ctx : SHA1Ctx}

theorem length_hexnum (d : DoubleBits) : (hexnum d).length = 16 := by simp [hexnum]

theorem length_treenodeHashGet {n : Treenode} (hn : NodeHashed n) {h : TreenodeHash}
    (hget : (treenodeHashGet standardSHA1 n).2 = some h) : h.length = 28 := by
  cases n with
  | leafNull => cases hget
  | leafBool b => exact Option.some.inj hget ▸ (hashLike_boolHash b).1
  | leafNumber d hash =>
      cases hash with
      | none => exact Option.some.inj hget ▸ rfl
      | some h' => exact Option.some.inj hget ▸ hn h' rfl
  | leafString s hash =>
      cases hash with
      | none => exact Option.some.inj hget ▸ rfl
      | some h' => exact Option.some.inj hget ▸ hn h' rfl
  | internal children hash =>
      cases hash with
      | none => exact Option.some.inj hget ▸ rfl
      | some h' => exact Option.some.inj hget ▸ hn h' rfl

theorem finishHash_absorbed {text : Bytes} {context : SHA1Ctx} (h : Absorbed text context) :
    finishHash order context = some (textHash standardSHA1 text) := by
  rw [finishHash, wcSHA1Final_absorbed order h]
  rfl

theorem feedChild_absorbed {text : Bytes} {context : SHA1Ctx} (h : Absorbed text context)
    {key : Key} (hkey : key.length + 63 < 2 ^ 32) {hash : TreenodeHash} (hhash : hash.length = 28) :
    ∃ context', feedChild order key hash context = some context' ∧
      Absorbed (text ++ childText key hash) context' := by
  have hlen : key.length = key.length.toUInt32.toNat := by
    rw [UInt32.toNat_ofNat', Nat.mod_eq_of_lt (by omega)]
  obtain ⟨c₁, hrun₁, h₁⟩ := h.update order [colon] 1 rfl (by decide)
  obtain ⟨c₂, hrun₂, h₂⟩ := h₁.update order key _ hlen (by rw [← hlen]; exact hkey)
  obtain ⟨c₃, hrun₃, h₃⟩ := h₂.update order [colon] 1 rfl (by decide)
  obtain ⟨c₄, hrun₄, h₄⟩ := h₃.update order hash 28 hhash (by decide)
  refine ⟨c₄, ?_, ?_⟩
  · simp only [feedChild, Option.bind_eq_bind, hrun₁, Option.bind_some, hrun₂, hrun₃, hrun₄]
  · have htext : text ++ childText key hash = text ++ [colon] ++ key ++ [colon] ++ hash := by
      simp [childText]
    rw [htext]
    exact h₄

mutual

/-- **The code that runs is the hash with SHA-1 in it.** -/
theorem runHashGet_eq : ∀ n : Treenode, n.Forall NodeFits → n.Forall NodeHashed →
    runHashGet order ctx n = some (treenodeHashGet standardSHA1 n)
  | .leafNull, _, _ => rfl
  | .leafBool _, _, _ => rfl
  | .leafNumber d none, _, _ => by
      obtain ⟨c₁, hrun₁, h₁⟩ := (absorbed_init ctx).update order (ascii "number:") 7 rfl
        (by decide)
      obtain ⟨c₂, hrun₂, h₂⟩ := h₁.update order (hexnum d) 16 (length_hexnum d)
        (by decide)
      simp only [runHashGet, Option.bind_eq_bind, hrun₁, Option.bind_some, hrun₂,
        finishHash_absorbed order h₂]
      rfl
  | .leafString s none, hfits, _ => by
      have hs : s.length + 63 < 2 ^ 32 := hfits.self
      have hlen : s.length = s.length.toUInt32.toNat := by
        rw [UInt32.toNat_ofNat', Nat.mod_eq_of_lt (by omega)]
      obtain ⟨c₁, hrun₁, h₁⟩ := (absorbed_init ctx).update order (ascii "string:") 7 rfl
        (by decide)
      obtain ⟨c₂, hrun₂, h₂⟩ := h₁.update order s _ hlen (by rw [← hlen]; exact hs)
      simp only [runHashGet, Option.bind_eq_bind, hrun₁, Option.bind_some, hrun₂,
        finishHash_absorbed order h₂]
      rfl
  | .internal children none, hfits, hhashed => by
      obtain ⟨context', hrun, habsorbed⟩ := runHashChildren_eq children hfits.self hfits.2
        hhashed.2 [] (wcSHA1Init ctx) (absorbed_init ctx)
      simp only [runHashGet, Option.bind_eq_bind, hrun, Option.bind_some,
        finishHash_absorbed order habsorbed]
      rfl
  | .leafNumber _ (some _), _, _ => rfl
  | .leafString _ (some _), _, _ => rfl
  | .internal _ (some _), _, _ => rfl

theorem runHashChildren_eq : ∀ t : Children, (∀ e ∈ t.toList, e.1.length + 63 < 2 ^ 32) →
    childrenForall NodeFits t → childrenForall NodeHashed t →
    ∀ (text : Bytes) (context : SHA1Ctx), Absorbed text context →
      ∃ context', runHashChildren order ctx t context =
          some ((hashChildren standardSHA1 t).1, context') ∧
        Absorbed (text ++ (hashChildren standardSHA1 t).2) context'
  | .nil, _, _, _, text, context, h => ⟨context, rfl, by simpa [hashChildren] using h⟩
  | .node l k n r height, hkeys, hfits, hhashed, text, context, h => by
      rw [AvlTree.toList_node, List.forall_mem_append, List.forall_mem_cons] at hkeys
      obtain ⟨hkl, hk, hkr⟩ := hkeys
      obtain ⟨c₁, hrun₁, h₁⟩ := runHashChildren_eq l hkl hfits.1 hhashed.1 text context h
      have hget := runHashGet_eq n hfits.2.1 hhashed.2.1
      have hlength := fun hash => length_treenodeHashGet (h := hash) hhashed.2.1.self
      simp only [runHashChildren, hashChildren, Option.bind_eq_bind, hrun₁, Option.bind_some, hget]
      generalize treenodeHashGet standardSHA1 n = found at hlength ⊢
      obtain ⟨n', hash⟩ := found
      cases hash with
      | none =>
          obtain ⟨c₃, hrun₃, h₃⟩ := runHashChildren_eq r hkr hfits.2.2 hhashed.2.2 _ c₁ h₁
          refine ⟨c₃, ?_, ?_⟩
          · simp only [Option.bind_some, hrun₃]
            rfl
          · rw [List.append_assoc] at h₃
            simpa only [List.append_nil] using h₃
      | some hash =>
          obtain ⟨c₂, hrun₂, h₂⟩ := feedChild_absorbed order h₁ hk (hlength hash rfl)
          obtain ⟨c₃, hrun₃, h₃⟩ := runHashChildren_eq r hkr hfits.2.2 hhashed.2.2 _ c₂ h₂
          refine ⟨c₃, ?_, ?_⟩
          · simp only [hrun₂, Option.bind_some, hrun₃]
            rfl
          · rw [List.append_assoc, List.append_assoc,
              ← List.append_assoc (hashChildren _ l).2] at h₃
            exact h₃

end

/-! ### The hash of a value -/

def boolText : Bool → Bytes
  | false => ascii "boolean:false"
  | true => ascii "boolean:true"

/-- The text whose digest is the hash of a node. -/
def nodeText : Treenode → Option Bytes
  | .leafNull => none
  | .leafBool b => some (boolText b)
  | .leafNumber d _ => some (numberText d)
  | .leafString s _ => some (stringText s)
  | .internal children _ => some (childrenText standardSHA1 children)

/-- A context all zero. -/
def zeroCtx : SHA1Ctx := ⟨⟨0, 0, 0, 0, 0⟩, 0, 0, ⟨List.replicate 64 0, rfl⟩⟩

/-- The constants of `bool_hash` are the digests of two texts, like any other hash. -/
theorem boolHash_eq (b : Bool) : boolHash b = textHash standardSHA1 (boolText b) := by
  have hrun := wcSHA1_eq .big zeroCtx (boolText b) (boolText b).length le_rfl
  rw [Int.toNat_natCast, List.take_length] at hrun
  have hbase : textHash standardSHA1 (boolText b) =
      base64Enc20
        (digestBytes ((wcSHA1 .big zeroCtx (boolText b) (boolText b).length).getD [])) := by
    rw [hrun]
    rfl
  rw [hbase]
  cases b <;> decide +kernel

theorem scratchHash_eq (n : Treenode) :
    scratchHash standardSHA1 n = (nodeText n).map (textHash standardSHA1) := by
  cases n with
  | leafBool b => exact congrArg some (boolHash_eq b)
  | _ => rfl

section Runs

variable {keyCmp : Key → Key → Ordering}

theorem nodeHashed_of_ok {n : Treenode} (h : NodeOk standardSHA1 keyCmp n) : NodeHashed n :=
  fun hash hhash => (hashLike_scratchHash (h.cached hash hhash)).1

variable [TransCmp keyCmp] [LawfulEqCmp keyCmp]

/-- **Hashes of the cache.** In every cache that a run reaches, the hash of a node is SHA-1
of the text of what the node holds, in base 64. -/
theorem hashes_standard (order : ByteOrder) (ctx : SHA1Ctx) {root : Treenode}
    (run : Reach (cacheStep standardSHA1 keyCmp) (fun _ _ => True) dataCacheNew root) :
    root.Forall fun n => n.Forall NodeFits →
      ∃ n', runHashGet order ctx n = some (n', (nodeText n).map (textHash standardSHA1)) := by
  apply Treenode.Forall.imp _ root (reachable_cache_ok run).subtrees
  intro n hok hfits
  have hhashed : n.Forall NodeHashed := hok.imp (fun _ => nodeHashed_of_ok) n
  refine ⟨(treenodeHashGet standardSHA1 n).1, ?_⟩
  rw [runHashGet_eq order n hfits hhashed, ← scratchHash_eq, ← (treenodeHashGet_spec n hok).1]

omit [TransCmp keyCmp] [LawfulEqCmp keyCmp] in
/-- What the code that runs returns for two nodes whose strings and keys fit in a
`uint32_t` tells their values apart, as far as the digest does. -/
theorem treeValue_eq_of_runHashGet (order : ByteOrder) {ctx ctx' : SHA1Ctx} {a b : Treenode}
    (ha : a.Forall (NodeOk standardSHA1 keyCmp)) (hb : b.Forall (NodeOk standardSHA1 keyCmp))
    (hfits : a.Forall NodeFits) (hfits' : b.Forall NodeFits) (hplain : PlainKeys a)
    (hplain' : PlainKeys b) (hdigest : DigestApart standardSHA1 a b) {a' b' : Treenode}
    {h h' : Option TreenodeHash} (hrun : runHashGet order ctx a = some (a', h))
    (hrun' : runHashGet order ctx' b = some (b', h')) (heq : treenodeHashEq h h' = true) :
    treeValue id a = treeValue id b := by
  rw [runHashGet_eq order a hfits (ha.imp (fun _ => nodeHashed_of_ok) a), Option.some.injEq]
    at hrun
  rw [runHashGet_eq order b hfits' (hb.imp (fun _ => nodeHashed_of_ok) b), Option.some.injEq]
    at hrun'
  have hash : h = scratchHash standardSHA1 a := by
    rw [← (treenodeHashGet_spec a ha).1, hrun]
  have hash' : h' = scratchHash standardSHA1 b := by
    rw [← (treenodeHashGet_spec b hb).1, hrun']
  rw [hash, hash'] at heq
  exact treeValue_eq_of_scratchHash id a b hplain hplain' hdigest
    (scratchHash_of_treenodeHashEq heq)

end Runs

theorem hashes_standard_true_at_a :
    ∃ n', runHashGet .little zeroCtx (dataCacheSet strcmp [47, 97] (.boolean true) dataCacheNew) =
      some (n', some (textHash standardSHA1 (childText [97] (boolHash true)))) := by
  have hrun : runSteps (cacheStep standardSHA1 strcmp) (fun _ _ => True) dataCacheNew
      [.set [47, 97] (.boolean true)] =
        some (dataCacheSet strcmp [47, 97] (.boolean true) dataCacheNew) := rfl
  have hroot : dataCacheSet strcmp [47, 97] (.boolean true) dataCacheNew =
      .internal (.node .nil [97] (.leafBool true) .nil 1) none := rfl
  have hall := hashes_standard .little zeroCtx (Reach.of_runSteps .start hrun)
  rw [hroot] at hall ⊢
  apply hall.self
  refine ⟨?_, trivial, trivial, trivial⟩
  simp [NodeFits]

end WebcomSdk.Cache

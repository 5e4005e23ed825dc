import WebcomSdk.Cache.CacheHash
import WebcomSdk.Cache.TreenodeJson

/-!
Waiting for a document. `wcsh` hashes the tree that `treenode_from_json` builds
and waits until the cache holds that hash. The two trees of one document are
built by two recursions; they agree on a document exactly when it has no
boolean and no integer outside 32 bits.
-/

namespace WebcomSdk.Cache

open WebcomSdk.Lib WebcomSdk.Collection WebcomSdk.Datasync Std

/-! ### Induction on documents and on trees -/

section Induction

variable {P : Json → Prop} (hnull : P .null) (hboolean : ∀ b, P (.boolean b))
  (hdouble : ∀ d, P (.double d)) (hint : ∀ i, P (.int i)) (hstring : ∀ s, P (.string s))
  (harray : ∀ elements, (∀ x ∈ elements, P x) → P (.array elements))
  (hobject : ∀ members : List (Key × Json), (∀ m ∈ members, P m.2) → P (.object members))

include hnull hboolean hdouble hint hstring harray hobject

set_option linter.unusedSectionVars false in
mutual

theorem Json.induct : ∀ x : Json, P x
  | .null => hnull
  | .boolean b => hboolean b
  | .double d => hdouble d
  | .int i => hint i
  | .string s => hstring s
  | .array elements => harray elements (elements_induct elements)
  | .object members => hobject members (members_induct members)

theorem elements_induct : ∀ elements : List Json, ∀ x ∈ elements, P x
  | [] => List.forall_mem_nil _
  | x :: elements => List.forall_mem_cons.mpr ⟨Json.induct x, elements_induct elements⟩

theorem members_induct : ∀ members : List (Key × Json), ∀ m ∈ members, P m.2
  | [] => List.forall_mem_nil _
  | (_, x) :: members => List.forall_mem_cons.mpr ⟨Json.induct x, members_induct members⟩

end

end Induction

section TreenodeInduction

variable {P : Treenode → Prop} (hnull : P .leafNull) (hbool : ∀ b, P (.leafBool b))
  (hnumber : ∀ d h, P (.leafNumber d h)) (hstring : ∀ s h, P (.leafString s h))
  (hinternal : ∀ (t : Children) (h : Option TreenodeHash),
    (∀ e ∈ t.toList, P e.2) → P (.internal t h))

include hnull hbool hnumber hstring hinternal

set_option linter.unusedSectionVars false in
mutual

theorem Treenode.induct : ∀ n : Treenode, P n
  | .leafNull => hnull
  | .leafBool b => hbool b
  | .leafNumber d h => hnumber d h
  | .leafString s h => hstring s h
  | .internal t h => hinternal t h (children_induct t)

theorem children_induct : ∀ t : Children, ∀ e ∈ t.toList, P e.2
  | .nil => List.forall_mem_nil _
  | .node l _ n r _ => by
      rw [AvlTree.toList_node, List.forall_mem_append, List.forall_mem_cons]
      exact ⟨children_induct l, Treenode.induct n, children_induct r⟩

end

end TreenodeInduction

/-! ### Readings of a level -/

/-- The entries of a level that have a reading, with it. -/
def readings {γ : Type} (φ : Treenode → Option γ) (t : Children) : List (Key × γ) :=
  t.toList.filterMap fun e => (φ e.2).map fun c => (e.1, c)

theorem sorted_readings {γ : Type} {keyCmp : Key → Key → Ordering} (φ : Treenode → Option γ)
    {t : Children} (ht : t.Ordered keyCmp) :
    (readings φ t).Pairwise fun a b => keyCmp a.1 b.1 = .lt := by
  refine List.Pairwise.filterMap _ ?_ ht
  intro a b hab a' ha' b' hb'
  simp only [Option.map_eq_some_iff] at ha' hb'
  obtain ⟨_, _, rfl⟩ := ha'
  obtain ⟨_, _, rfl⟩ := hb'
  exact hab

/-- The text of an internal node, read off its children. -/
theorem childrenText_eq {wcSHA1 : SHA1} (t : Children) : childrenText wcSHA1 t =
    (readings (scratchHash wcSHA1) t).flatMap fun e => childText e.1 e.2 := by
  induction t with
  | nil => rfl
  | node l k n r h ihl ihr =>
      rw [childrenText, ihl, ihr]
      cases hn : scratchHash wcSHA1 n <;> simp [readings, hn]

/-- What stays of a child when null children are dropped. -/
def live (keyCmp : Key → Key → Ordering) (n : Treenode) : Option Treenode :=
  if n.isNull then none else some (dropNulls keyCmp n)

/-! ### Trees built entry by entry -/

section Build

variable (keyCmp : Key → Key → Ordering)

theorem copyChildren_eq (into : Children) : ∀ t : Children, copyChildren keyCmp t into =
    avlInsertAll keyCmp into (t.toList.map fun e => (e.1, treenodeCopy keyCmp e.2)) := by
  intro t
  induction t generalizing into with
  | nil => rfl
  | node l k n r h ihl ihr =>
      rw [copyChildren, ihl, ihr]
      simp [avlInsertAll]

theorem dropNullChildren_eq (into : Children) : ∀ t : Children,
    dropNullChildren keyCmp t into = avlInsertAll keyCmp into (readings (live keyCmp) t) := by
  intro t
  induction t generalizing into with
  | nil => rfl
  | node l k n r h ihl ihr =>
      rw [dropNullChildren, ihl, ihr]
      cases hnull : n.isNull <;> simp [avlInsertAll, internalAddNew, readings, live, hnull]

end Build

/-! ### Copies -/

section Copy

variable {wcSHA1 : SHA1} {keyCmp : Key → Key → Ordering} [TransCmp keyCmp]

omit [TransCmp keyCmp] in
theorem isNull_treenodeCopy (n : Treenode) : (treenodeCopy keyCmp n).isNull = n.isNull := by
  cases n <;> rfl

/-- A copy has no flag set and its children are in search trees, whatever the
original. -/
theorem treenodeCopy_ok :
    ∀ n : Treenode, (treenodeCopy keyCmp n).Forall (NodeOk wcSHA1 keyCmp) := by
  refine Treenode.induct nodeOk_leafNull nodeOk_leafBool (fun d _ => nodeOk_leafNumber d)
    (fun s _ => nodeOk_leafString s) fun t _ ih => ?_
  rw [treenodeCopy, copyChildren_eq]
  refine forall_internal_none_iff.mpr ?_
  have hstep : ∀ (entries : List (Key × Treenode)) (into : Children),
      (∀ e ∈ entries, (treenodeCopy keyCmp e.2).Forall (NodeOk wcSHA1 keyCmp)) →
        ChildrenOk wcSHA1 keyCmp into → ChildrenOk wcSHA1 keyCmp
          (avlInsertAll keyCmp into (entries.map fun e => (e.1, treenodeCopy keyCmp e.2))) := by
    intro entries
    induction entries with
    | nil => exact fun _ _ h => h
    | cons e entries ih =>
        intro into he h
        rw [List.forall_mem_cons] at he
        exact ih _ he.2 (h.addNew e.1 he.1)
  exact hstep t.toList .nil ih childrenOk_nil

theorem readings_copyChildren {γ : Type} {φ : Treenode → Option γ} {t : Children}
    (ht : t.Ordered keyCmp) (hφ : ∀ e ∈ t.toList, φ (treenodeCopy keyCmp e.2) = φ e.2) :
    readings φ (copyChildren keyCmp t .nil) = readings φ t := by
  have hsorted : (t.toList.map fun e => (e.1, treenodeCopy keyCmp e.2)).Pairwise
      fun a b => keyCmp a.1 b.1 = .lt := by
    rw [List.pairwise_map]
    exact ht
  rw [readings, copyChildren_eq, (toList_avlInsertAll_nil hsorted).2, List.filterMap_map]
  refine List.filterMap_congr fun e he => ?_
  simp only [Function.comp_apply, hφ e he]

theorem scratchHash_treenodeCopy : ∀ n : Treenode, n.Forall (NodeOk wcSHA1 keyCmp) →
    scratchHash wcSHA1 (treenodeCopy keyCmp n) = scratchHash wcSHA1 n := by
  refine Treenode.induct (fun _ => rfl) (fun _ _ => rfl) (fun _ _ _ => rfl) (fun _ _ _ => rfl)
    fun t hash ih hn => ?_
  have hc := hn.childrenOk
  rw [treenodeCopy, scratchHash, scratchHash, childrenText_eq, childrenText_eq,
    readings_copyChildren hc.ordered fun e he => ih e he (hc.all e he)]

theorem dropNulls_treenodeCopy : ∀ n : Treenode, n.Forall (NodeOk wcSHA1 keyCmp) →
    dropNulls keyCmp (treenodeCopy keyCmp n) = dropNulls keyCmp n := by
  refine Treenode.induct (fun _ => rfl) (fun _ _ => rfl) (fun _ _ _ => rfl) (fun _ _ _ => rfl)
    fun t hash ih hn => ?_
  have hc := hn.childrenOk
  rw [treenodeCopy, dropNulls, dropNulls, dropNullChildren_eq, dropNullChildren_eq,
    readings_copyChildren hc.ordered fun e he => by
      rw [live, live, isNull_treenodeCopy, ih e he (hc.all e he)]]

end Copy

/-! ### The trees of a document -/

section Store

variable (keyCmp : Key → Key → Ordering)

/-- One step of building a level: a child, or the removal that a null asks for. -/
def store (key : Key) (node : Option Treenode) (t : Children) : Children :=
  match node with
  | some n => internalAddNew keyCmp key n t
  | none => avlRemove keyCmp key t

def storeAll (g : Json → Option Treenode) (t : Children) (members : List (Key × Json)) : Children :=
  members.foldl (fun t m => store keyCmp m.1 (g m.2) t) t

/-- What `treenode_from_json_r` adds for a value. -/
def fromJsonChild (x : Json) : Option Treenode :=
  some (treenodeCopy keyCmp (treenodeFromJsonR keyCmp x))

/-- What `data_cache_set_r` adds for a value. -/
def setChild : Json → Option Treenode
  | .null => none
  | x => some (dataCacheSetRoot keyCmp x)

/-- The elements of an array, under their indices from `i` on. -/
def indexed (i : ℕ) : List Json → List (Key × Json)
  | [] => []
  | x :: elements => (sidx i, x) :: indexed (i + 1) elements

theorem fromMembers_eq (members : List (Key × Json)) : ∀ t : Children,
    fromMembers keyCmp t members = storeAll keyCmp (fromJsonChild keyCmp) t members := by
  induction members with
  | nil => exact fun _ => rfl
  | cons m members ih => exact fun t => ih _

theorem fromElements_eq (elements : List Json) : ∀ (i : ℕ) (t : Children),
    fromElements keyCmp i t elements =
      storeAll keyCmp (fromJsonChild keyCmp) t (indexed i elements) := by
  induction elements with
  | nil => exact fun _ _ => rfl
  | cons x elements ih => exact fun i t => ih _ _

theorem dataCacheSetR_eq (key : Key) (t : Children) (x : Json) :
    dataCacheSetR keyCmp key t x = store keyCmp key (setChild keyCmp x) t := by
  cases x <;> rfl

theorem setMembers_eq (members : List (Key × Json)) : ∀ t : Children,
    setMembers keyCmp t members = storeAll keyCmp (setChild keyCmp) t members := by
  induction members with
  | nil => exact fun _ => rfl
  | cons m members ih =>
      intro t
      rw [setMembers, ih, dataCacheSetR_eq]
      rfl

theorem setElements_eq (elements : List Json) : ∀ (i : ℕ) (t : Children),
    setElements keyCmp i t elements =
      storeAll keyCmp (setChild keyCmp) t (indexed i elements) := by
  induction elements with
  | nil => exact fun _ _ => rfl
  | cons x elements ih =>
      intro i t
      rw [setElements, ih, dataCacheSetR_eq]
      rfl

variable {keyCmp} [TransCmp keyCmp] [LawfulEqCmp keyCmp]

/-- Storing under distinct keys that are free. -/
theorem storeAll_spec (g : Json → Option Treenode) {members : List (Key × Json)}
    (hnodup : (members.map Prod.fst).Nodup) : ∀ t : Children, t.Ordered keyCmp →
      (∀ m ∈ members, avlFind keyCmp m.1 t = none) →
        (storeAll keyCmp g t members).Ordered keyCmp ∧
          (∀ m ∈ members, avlFind keyCmp m.1 (storeAll keyCmp g t members) = g m.2) ∧
          ∀ k ∉ members.map Prod.fst,
            avlFind keyCmp k (storeAll keyCmp g t members) = avlFind keyCmp k t := by
  induction members with
  | nil => exact fun t ht _ => ⟨ht, by simp, fun _ _ => rfl⟩
  | cons m members ih =>
      intro t ht hfree
      rw [List.map_cons, List.nodup_cons] at hnodup
      rw [List.forall_mem_cons] at hfree
      have hord : (store keyCmp m.1 (g m.2) t).Ordered keyCmp := by
        cases hg : g m.2 with
        | none => exact ordered_avlRemove ht m.1
        | some n => exact ordered_internalAddNew ht m.1 n
      have hfind : ∀ k, avlFind keyCmp k (store keyCmp m.1 (g m.2) t) =
          if k = m.1 then g m.2 else avlFind keyCmp k t := by
        intro k
        cases hg : g m.2 with
        | none =>
            rw [store, avlFind_avlRemove ht]
            simp only [LawfulEqCmp.compare_eq_iff_eq]
        | some n => exact avlFind_internalAddNew ht n hfree.1 k
      have hne : ∀ m' ∈ members, m'.1 ≠ m.1 := fun m' hm' heq =>
        hnodup.1 (heq ▸ List.mem_map_of_mem hm')
      obtain ⟨hord', hin, hout⟩ := ih hnodup.2 _ hord fun m' hm' => by
        rw [hfind, if_neg (hne m' hm'), hfree.2 m' hm']
      refine ⟨hord', List.forall_mem_cons.mpr ⟨?_, hin⟩, fun k hk => ?_⟩
      · rw [storeAll, List.foldl_cons]
        exact (hout m.1 hnodup.1).trans (by rw [hfind, if_pos rfl])
      · rw [List.map_cons, List.mem_cons, not_or] at hk
        rw [storeAll, List.foldl_cons]
        exact (hout k hk.2).trans (by rw [hfind, if_neg hk.1])

theorem storeAll_nil_spec (g : Json → Option Treenode) {members : List (Key × Json)}
    (hnodup : (members.map Prod.fst).Nodup) :
    (storeAll keyCmp g .nil members).Ordered keyCmp ∧ ∀ e : Key × Treenode,
      e ∈ (storeAll keyCmp g .nil members).toList ↔
        ∃ m ∈ members, m.1 = e.1 ∧ g m.2 = some e.2 := by
  have hnil : (AvlTree.nil : Children).Ordered keyCmp := AvlTree.ordered_nil
  obtain ⟨hord, hin, hout⟩ := storeAll_spec g hnodup .nil hnil fun _ _ => rfl
  refine ⟨hord, fun e => ?_⟩
  rw [← avlFind_eq_some_iff hord]
  constructor
  · intro he
    by_cases hk : e.1 ∈ members.map Prod.fst
    · obtain ⟨m, hm, hkey⟩ := List.mem_map.mp hk
      exact ⟨m, hm, hkey, by rw [← hin m hm, hkey, he]⟩
    · rw [hout e.1 hk] at he
      cases he
  · rintro ⟨m, hm, hkey, hg⟩
    rw [← hkey, hin m hm, hg]

/-! ### Readings of a document's level -/

theorem mem_readings_storeAll {γ : Type} (φ : Treenode → Option γ) (g : Json → Option Treenode)
    {members : List (Key × Json)} (hnodup : (members.map Prod.fst).Nodup) {e : Key × γ} :
    e ∈ readings φ (storeAll keyCmp g .nil members) ↔
      ∃ m ∈ members, m.1 = e.1 ∧ (g m.2).bind φ = some e.2 := by
  have hmem : ∀ a : Key × Treenode, a ∈ (storeAll keyCmp g .nil members).toList ↔
      ∃ m ∈ members, m.1 = a.1 ∧ g m.2 = some a.2 := (storeAll_nil_spec g hnodup).2
  simp only [readings, List.mem_filterMap, Option.map_eq_some_iff]
  constructor
  · rintro ⟨a, ha, c, hc, rfl⟩
    obtain ⟨m, hm, hkey, hg⟩ := (hmem a).mp ha
    exact ⟨m, hm, hkey, by rw [hg, Option.bind_some, hc]⟩
  · rintro ⟨m, hm, hkey, hg⟩
    obtain ⟨n, hn, hc⟩ := Option.bind_eq_some_iff.mp hg
    exact ⟨(m.1, n), (hmem _).mpr ⟨m, hm, rfl, hn⟩, e.2, hc, by rw [hkey]⟩

/-- Two levels stored from the same members have the same readings when every
member does. -/
theorem readings_storeAll_congr {γ : Type} (φ : Treenode → Option γ) {g g' : Json → Option Treenode}
    {members : List (Key × Json)} (hnodup : (members.map Prod.fst).Nodup)
    (h : ∀ m ∈ members, (g m.2).bind φ = (g' m.2).bind φ) :
    readings φ (storeAll keyCmp g .nil members) = readings φ (storeAll keyCmp g' .nil members) := by
  have hord : (storeAll keyCmp g .nil members).Ordered keyCmp := (storeAll_nil_spec g hnodup).1
  have hord' : (storeAll keyCmp g' .nil members).Ordered keyCmp := (storeAll_nil_spec g' hnodup).1
  refine sorted_ext (sorted_readings φ hord) (sorted_readings φ hord') fun e => ?_
  rw [mem_readings_storeAll φ g hnodup, mem_readings_storeAll φ g' hnodup]
  constructor
  · rintro ⟨m, hm, hkey, he⟩
    exact ⟨m, hm, hkey, h m hm ▸ he⟩
  · rintro ⟨m, hm, hkey, he⟩
    exact ⟨m, hm, hkey, (h m hm).symm ▸ he⟩

/-! ### Texts that agree -/

/-- The length of a child's text, for a hash of 28 bytes. -/
def textLength (key : Key) : ℕ := key.length + 30

theorem length_childTexts {l : List (Key × TreenodeHash)} (hl : ∀ e ∈ l, e.2.length = 28) :
    (l.flatMap fun e => childText e.1 e.2).length = ((l.map Prod.fst).map textLength).sum := by
  induction l with
  | nil => rfl
  | cons e l ih =>
      rw [List.forall_mem_cons] at hl
      rw [List.flatMap_cons, List.length_append, ih hl.2]
      simp [childText, textLength, hl.1]

theorem keys_eq_of_sum_eq {ks ks' : List Key} (h : ks.Sublist ks')
    (hsum : (ks.map textLength).sum = (ks'.map textLength).sum) : ks = ks' := by
  induction h with
  | slnil => rfl
  | cons k h ih =>
      -- a key that is left out leaves the text shorter
      have hle := (h.map textLength).sum_le_sum fun _ _ => Nat.zero_le _
      simp only [List.map_cons, List.sum_cons, textLength] at hsum hle
      omega
  | cons_cons k h ih =>
      simp only [List.map_cons, List.sum_cons, Nat.add_left_cancel_iff] at hsum
      rw [ih hsum]

theorem childTexts_inj_of_keys {l l' : List (Key × TreenodeHash)}
    (hkeys : l.map Prod.fst = l'.map Prod.fst) (hl : ∀ e ∈ l, e.2.length = 28)
    (hl' : ∀ e ∈ l', e.2.length = 28)
    (htext : (l.flatMap fun e => childText e.1 e.2) = l'.flatMap fun e => childText e.1 e.2) :
    l = l' := by
  induction l generalizing l' with
  | nil => simpa using hkeys.symm
  | cons e l ih =>
      cases l' with
      | nil => simp at hkeys
      | cons e' l' =>
          obtain ⟨k, h⟩ := e
          obtain ⟨k', h'⟩ := e'
          simp only [List.map_cons, List.cons.injEq] at hkeys
          obtain ⟨rfl, hkeys⟩ := hkeys
          rw [List.forall_mem_cons] at hl hl'
          simp only [List.flatMap_cons] at htext
          have hlen : (childText k h).length = (childText k h').length := by
            simp [childText, hl.1, hl'.1]
          obtain ⟨hhead, htail⟩ := List.append_inj htext hlen
          have hh : h = h' := by simpa [childText] using hhead
          rw [hh, ih hkeys hl.2 hl'.2 htail]

/-- A level with entries left out has a shorter text, and one with the same keys
has the same text only if it has the same hashes. -/
theorem childTexts_inj {l l' : List (Key × TreenodeHash)}
    (hkeys : (l.map Prod.fst).Sublist (l'.map Prod.fst))
    (hl : ∀ e ∈ l, e.2.length = 28) (hl' : ∀ e ∈ l', e.2.length = 28)
    (htext : (l.flatMap fun e => childText e.1 e.2) = l'.flatMap fun e => childText e.1 e.2) :
    l = l' := by
  refine childTexts_inj_of_keys (keys_eq_of_sum_eq hkeys ?_) hl hl' htext
  rw [← length_childTexts hl, ← length_childTexts hl', htext]

theorem length_scratchHash {wcSHA1 : SHA1} {n : Treenode} {h : TreenodeHash}
    (hn : scratchHash wcSHA1 n = some h) : h.length = 28 := by
  cases n with
  | leafNull => cases hn
  | leafBool b => cases b <;> cases hn <;> rfl
  | leafNumber d h' => cases hn; rfl
  | leafString s h' => cases hn; rfl
  | internal t h' => cases hn; rfl

end Store

/-! ### Numbers and indices -/

theorem hexDigit_inj : ∀ a b : Fin 16,
    (if (a : ℕ) < 10 then 48 + (a : ℕ) else 87 + a).toUInt8 =
      (if (b : ℕ) < 10 then 48 + (b : ℕ) else 87 + b).toUInt8 → a = b := by decide

theorem eq_of_digits_eq (n : ℕ) : ∀ a b : ℕ, a < 16 ^ n → b < 16 ^ n →
    (∀ k < n, a / 16 ^ k % 16 = b / 16 ^ k % 16) → a = b := by
  induction n with
  | zero =>
      intro a b ha hb _
      omega
  | succ n ih =>
      intro a b ha hb h
      have hlow : a % 16 = b % 16 := by simpa using h 0 (Nat.succ_pos n)
      have hhigh : a / 16 = b / 16 := by
        refine ih _ _ (by omega) (by omega) fun k hk => ?_
        have hk' := h (k + 1) (Nat.succ_lt_succ hk)
        rwa [pow_succ', ← Nat.div_div_eq_div_mul, ← Nat.div_div_eq_div_mul] at hk'
      omega

theorem hexnum_inj {a b : UInt64} (h : hexnum a = hexnum b) : a = b := by
  refine UInt64.toNat_inj.mp (eq_of_digits_eq 16 _ _ a.toNat_lt b.toNat_lt fun k hk => ?_)
  have hdigit := List.map_inj_left.mp h (15 - k) (List.mem_range.mpr (by omega))
  have hsub : 15 - (15 - k) = k := by omega
  have hpow : 2 ^ (4 * k) = 16 ^ k := by rw [pow_mul, show 2 ^ 4 = 16 from rfl]
  simp only [hsub, Nat.shiftRight_eq_div_pow, hpow] at hdigit
  have hfin := hexDigit_inj ⟨a.toNat / 16 ^ k % 16, Nat.mod_lt _ (by omega)⟩
    ⟨b.toNat / 16 ^ k % 16, Nat.mod_lt _ (by omega)⟩ hdigit
  exact Fin.mk.inj hfin

theorem numberText_inj {a b : DoubleBits} (h : numberText a = numberText b) : a = b :=
  hexnum_inj (List.append_cancel_left h)

/-- The index that the text of an index stands for. -/
def sidxValue (key : Key) : ℕ := Nat.ofDigits 10 (key.reverse.map fun c => c.toNat - 48)

theorem sidxValue_sidx (i : ℕ) : sidxValue (sidx i) = i := by
  rw [sidx]
  split
  next h => rw [h]; rfl
  next h =>
    have hdigits : (Nat.digits 10 i).map ((fun c : UInt8 => c.toNat - 48) ∘
        fun d : ℕ => (48 + d).toUInt8) = (Nat.digits 10 i).map id := by
      refine List.map_congr_left fun d hd => ?_
      have hlt : d < 10 := Nat.digits_lt_base (by omega) hd
      simp only [Function.comp_apply, id_eq, Nat.toUInt8, UInt8.toNat_ofNat']
      omega
    rw [sidxValue, ← List.map_reverse, List.reverse_reverse, List.map_map, hdigits, List.map_id,
      Nat.ofDigits_digits]

theorem mem_keys_indexed {elements : List Json} {i : ℕ} {k : Key}
    (h : k ∈ (indexed i elements).map Prod.fst) : ∃ j, i ≤ j ∧ k = sidx j := by
  induction elements generalizing i with
  | nil => cases h
  | cons x elements ih =>
      rcases List.mem_cons.mp h with rfl | h
      · exact ⟨i, le_rfl, rfl⟩
      · obtain ⟨j, hj, rfl⟩ := ih h
        exact ⟨j, by omega, rfl⟩

theorem nodup_keys_indexed (elements : List Json) (i : ℕ) :
    ((indexed i elements).map Prod.fst).Nodup := by
  induction elements generalizing i with
  | nil => exact List.nodup_nil
  | cons x elements ih =>
      refine List.nodup_cons.mpr ⟨fun h => ?_, ih (i + 1)⟩
      obtain ⟨j, hj, heq⟩ := mem_keys_indexed h
      have hval := congrArg sidxValue heq
      rw [sidxValue_sidx, sidxValue_sidx] at hval
      omega

theorem forall_mem_indexed {P : Json → Prop} {elements : List Json} {i : ℕ} :
    (∀ m ∈ indexed i elements, P m.2) ↔ ∀ x ∈ elements, P x := by
  induction elements generalizing i with
  | nil => simp [indexed]
  | cons x elements ih => rw [indexed, List.forall_mem_cons, List.forall_mem_cons, ih]

/-! ### Integers as doubles -/

/-- Whether the 32-bit accessor reads the integer as it is. -/
def FitsInt32 (i : ℤ) : Prop := -2 ^ 31 ≤ i ∧ i ≤ 2 ^ 31 - 1

instance (i : ℤ) : Decidable (FitsInt32 i) := inferInstanceAs (Decidable (_ ∧ _))

theorem natToDouble_small {m e : ℕ} (hlow : 2 ^ e ≤ m) (hhigh : m < 2 ^ (e + 1)) (he : e ≤ 52) :
    natToDouble m = (e + 1022) * 2 ^ 52 + m * 2 ^ (52 - e) := by
  have hm : m ≠ 0 := by
    have := Nat.two_pow_pos e
    omega
  have hlog : m.log2 = e := (Nat.log2_eq_iff hm).mpr ⟨hlow, hhigh⟩
  simp only [natToDouble, hlog, if_pos he]

/-- A number with `e + 1` binary digits has the exponent `e`, or is rounded up
to the next power of two. -/
theorem natToDouble_bounds {m e : ℕ} (hlow : 2 ^ e ≤ m) (hhigh : m < 2 ^ (e + 1)) :
    (e + 1023) * 2 ^ 52 ≤ natToDouble m ∧ natToDouble m ≤ (e + 1024) * 2 ^ 52 := by
  have hm : m ≠ 0 := by
    have := Nat.two_pow_pos e
    omega
  have hlog : m.log2 = e := (Nat.log2_eq_iff hm).mpr ⟨hlow, hhigh⟩
  by_cases he : e ≤ 52
  · rw [natToDouble_small hlow hhigh he]
    have hpow : 2 ^ e * 2 ^ (52 - e) = 2 ^ 52 := by rw [← pow_add, Nat.add_sub_cancel' he]
    have hl := Nat.mul_le_mul_right (2 ^ (52 - e)) hlow
    have hh := Nat.mul_le_mul_right (2 ^ (52 - e)) hhigh.le
    rw [pow_succ] at hh
    constructor <;> nlinarith
  · simp only [natToDouble, hlog, if_neg he]
    have hpow : 2 ^ 52 * 2 ^ (e - 52) = 2 ^ e := by
      rw [← pow_add, Nat.add_sub_cancel' (by omega)]
    have hunit := Nat.two_pow_pos (e - 52)
    have hl : 2 ^ 52 ≤ m / 2 ^ (e - 52) := (Nat.le_div_iff_mul_le hunit).mpr (by omega)
    have hh : m / 2 ^ (e - 52) < 2 ^ 53 := (Nat.div_lt_iff_lt_mul hunit).mpr (by
      rw [pow_succ] at hhigh
      omega)
    have hh' : m / 2 ^ (e - 52) + 1 ≤ 2 ^ 53 := hh
    split <;> constructor <;> linarith

/-- What the 32-bit accessor returns for a larger integer has another double. -/
theorem intToDouble_clamped_ne {i : Int64} (h : ¬ FitsInt32 i.toInt) :
    intToDouble (jsonObjectGetInt i) ≠ intToDouble i.toInt := by
  have hlo : -2 ^ 63 ≤ i.toInt := Int64.le_toInt i
  have hhi : i.toInt < 2 ^ 63 := Int64.toInt_lt i
  rw [jsonObjectGetInt]
  generalize i.toInt = n at *
  have hm : n.natAbs ≠ 0 := by
    rintro h0
    exact h ⟨by omega, by omega⟩
  have hlow := Nat.log2_self_le hm
  have hhigh : n.natAbs < 2 ^ (n.natAbs.log2 + 1) := Nat.lt_log2_self
  have he : n.natAbs.log2 < 64 := (Nat.log2_lt hm).mpr (by omega)
  have h31 : 31 ≤ n.natAbs.log2 := (Nat.le_log2 hm).mpr (by
    rw [FitsInt32] at h
    omega)
  obtain ⟨hge, hle⟩ := natToDouble_bounds hlow hhigh
  intro heq
  have hbits := congrArg UInt64.toNat heq
  rcases lt_or_ge n 0 with hneg | hpos
  · -- clamped to `-2 ^ 31`
    have hclamp : max (-2 ^ 31) (min (2 ^ 31 - 1) n) = -2 ^ 31 := by
      rw [FitsInt32] at h
      omega
    have hmin : (intToDouble (-2 ^ 31)).toNat = 2 ^ 63 + 1054 * 2 ^ 52 := by rfl
    have hlarger : 1054 * 2 ^ 52 < natToDouble n.natAbs := by
      rcases Nat.eq_or_lt_of_le h31 with h31 | h32
      · rw [natToDouble_small hlow hhigh (by omega), ← h31]
        rw [FitsInt32] at h
        omega
      · omega
    rw [hclamp, hmin, intToDouble, if_neg (by omega), if_pos hneg, UInt64.toNat_ofNat'] at hbits
    omega
  · have hclamp : max (-2 ^ 31) (min (2 ^ 31 - 1) n) = 2 ^ 31 - 1 := by
      rw [FitsInt32] at h
      omega
    have hmax : (intToDouble (2 ^ 31 - 1)).toNat = 1052 * 2 ^ 52 + 2147483647 * 2 ^ 22 := by rfl
    rw [hclamp, hmax, intToDouble, if_neg (by omega), if_neg (by omega),
      UInt64.toNat_ofNat'] at hbits
    omega

/-! ### When the two trees agree -/

mutual

/-- The document has no boolean, and no integer outside 32 bits. -/
def WaitFits : Json → Prop
  | .boolean _ => False
  | .int i => FitsInt32 i.toInt
  | .array elements => elementsFit elements
  | .object members => membersFit members
  | .null => True
  | .double _ => True
  | .string _ => True

def elementsFit : List Json → Prop
  | [] => True
  | x :: elements => WaitFits x ∧ elementsFit elements

def membersFit : List (Key × Json) → Prop
  | [] => True
  | (_, x) :: members => WaitFits x ∧ membersFit members

end

section Agree

variable (wcSHA1 : SHA1) (keyCmp : Key → Key → Ordering)

mutual

/-- The texts hashed for corresponding nodes of the two trees of a document. -/
def textPairs : Json → List (Bytes × Bytes)
  | .int i => [(numberText (intToDouble (jsonObjectGetInt i)), numberText (intToDouble i.toInt))]
  | .array elements =>
      (childrenText wcSHA1 (fromElements keyCmp 0 .nil elements),
        childrenText wcSHA1 (setElements keyCmp 0 .nil elements)) :: elementsPairs elements
  | .object members =>
      (childrenText wcSHA1 (fromMembers keyCmp .nil members),
        childrenText wcSHA1 (setMembers keyCmp .nil members)) :: membersPairs members
  | .null => []
  | .boolean _ => []
  | .double _ => []
  | .string _ => []

def elementsPairs : List Json → List (Bytes × Bytes)
  | [] => []
  | x :: elements => textPairs x ++ elementsPairs elements

def membersPairs : List (Key × Json) → List (Bytes × Bytes)
  | [] => []
  | (_, x) :: members => textPairs x ++ membersPairs members

end

/-- The digest tells the two texts hashed for the same node apart when they
differ. -/
def NoCollision (x : Json) : Prop :=
  ∀ p ∈ textPairs wcSHA1 keyCmp x, textHash wcSHA1 p.1 = textHash wcSHA1 p.2 → p.1 = p.2

/-- The hash `wcsh` waits for is that of the cached document, and the two trees
have the same JSON text once null children are dropped. -/
def WaitAgrees (g16 : DoubleBits → Bytes) (root : Treenode) (x : Json) : Prop :=
  (treenodeHashGet wcSHA1 (treenodeFromJsonR keyCmp x)).2 =
      (treenodeHashGet wcSHA1 (dataCacheSet keyCmp [] x root)).2 ∧
    treenodeToJson g16 (dropNulls keyCmp (treenodeFromJsonR keyCmp x)) =
      treenodeToJson g16 (dropNulls keyCmp (dataCacheSet keyCmp [] x root))

variable {wcSHA1 keyCmp}

theorem elementsFit_iff {elements : List Json} :
    elementsFit elements ↔ ∀ x ∈ elements, WaitFits x := by
  induction elements with
  | nil => simp [elementsFit]
  | cons x elements ih => rw [elementsFit, ih, List.forall_mem_cons]

theorem membersFit_iff {members : List (Key × Json)} :
    membersFit members ↔ ∀ m ∈ members, WaitFits m.2 := by
  induction members with
  | nil => simp [membersFit]
  | cons m members ih => rw [membersFit, ih, List.forall_mem_cons]

theorem elementsWellFormed_iff {elements : List Json} :
    elementsWellFormed elements ↔ ∀ x ∈ elements, x.WellFormed := by
  induction elements with
  | nil => simp [elementsWellFormed]
  | cons x elements ih => rw [elementsWellFormed, ih, List.forall_mem_cons]

theorem membersWellFormed_iff {members : List (Key × Json)} :
    membersWellFormed members ↔ ∀ m ∈ members, m.2.WellFormed := by
  induction members with
  | nil => simp [membersWellFormed]
  | cons m members ih => rw [membersWellFormed, ih, List.forall_mem_cons]

theorem mem_elementsPairs {elements : List Json} {p : Bytes × Bytes} :
    p ∈ elementsPairs wcSHA1 keyCmp elements ↔ ∃ x ∈ elements, p ∈ textPairs wcSHA1 keyCmp x := by
  induction elements with
  | nil => simp [elementsPairs]
  | cons x elements ih => simp [elementsPairs, ih]

theorem mem_membersPairs {members : List (Key × Json)} {p : Bytes × Bytes} :
    p ∈ membersPairs wcSHA1 keyCmp members ↔
      ∃ m ∈ members, p ∈ textPairs wcSHA1 keyCmp m.2 := by
  induction members with
  | nil => simp [membersPairs]
  | cons m members ih => simp [membersPairs, ih]

theorem setChild_bind {γ : Type} {φ : Treenode → Option γ} (hφ : φ .leafNull = none) (x : Json) :
    (setChild keyCmp x).bind φ = φ (dataCacheSetRoot keyCmp x) := by
  cases x with
  | null => exact hφ.symm
  | _ => rfl

theorem isNull_dropNulls (n : Treenode) : (dropNulls keyCmp n).isNull = n.isNull := by
  cases n <;> rfl

theorem live_congr {n n' : Treenode} (h : dropNulls keyCmp n = dropNulls keyCmp n') :
    live keyCmp n = live keyCmp n' := by
  rw [live, live, ← isNull_dropNulls n, ← isNull_dropNulls n', h]

variable [TransCmp keyCmp]

theorem storeAll_fromJsonChild_ok (members : List (Key × Json)) : ∀ t : Children,
    ChildrenOk wcSHA1 keyCmp t →
      ChildrenOk wcSHA1 keyCmp (storeAll keyCmp (fromJsonChild keyCmp) t members) := by
  induction members with
  | nil => exact fun _ h => h
  | cons m members ih => exact fun t h => ih _ (h.addNew m.1 (treenodeCopy_ok _))

theorem treenodeFromJsonR_ok (x : Json) :
    (treenodeFromJsonR keyCmp x).Forall (NodeOk wcSHA1 keyCmp) := by
  cases x with
  | array elements =>
      rw [treenodeFromJsonR, fromElements_eq]
      exact forall_internal_none_iff.mpr (storeAll_fromJsonChild_ok _ _ childrenOk_nil)
  | object members =>
      rw [treenodeFromJsonR, fromMembers_eq]
      exact forall_internal_none_iff.mpr (storeAll_fromJsonChild_ok _ _ childrenOk_nil)
  | null => exact nodeOk_leafNull
  | boolean b => exact nodeOk_leafNull
  | double d => exact nodeOk_leafNumber d
  | int i => exact nodeOk_leafNumber _
  | string s => exact nodeOk_leafString s

theorem fromJsonChild_bind_scratchHash (x : Json) :
    (fromJsonChild keyCmp x).bind (scratchHash wcSHA1) =
      scratchHash wcSHA1 (treenodeFromJsonR keyCmp x) :=
  scratchHash_treenodeCopy _ (treenodeFromJsonR_ok x)

theorem fromJsonChild_bind_live (x : Json) :
    (fromJsonChild keyCmp x).bind (live keyCmp) = live keyCmp (treenodeFromJsonR keyCmp x) := by
  have hok : (treenodeFromJsonR keyCmp x).Forall (NodeOk (fun _ _ => 0) keyCmp) :=
    treenodeFromJsonR_ok x
  exact live_congr (dropNulls_treenodeCopy _ hok)

variable [LawfulEqCmp keyCmp]

/-- What the induction shows of a document that fits. -/
def TreesAgree (wcSHA1 : SHA1) (keyCmp : Key → Key → Ordering) (x : Json) : Prop :=
  scratchHash wcSHA1 (treenodeFromJsonR keyCmp x) =
      scratchHash wcSHA1 (dataCacheSetRoot keyCmp x) ∧
    dropNulls keyCmp (treenodeFromJsonR keyCmp x) = dropNulls keyCmp (dataCacheSetRoot keyCmp x)

theorem level_agrees {members : List (Key × Json)} (hnodup : (members.map Prod.fst).Nodup)
    (h : ∀ m ∈ members, TreesAgree wcSHA1 keyCmp m.2) :
    childrenText wcSHA1 (storeAll keyCmp (fromJsonChild keyCmp) .nil members) =
        childrenText wcSHA1 (storeAll keyCmp (setChild keyCmp) .nil members) ∧
      dropNullChildren keyCmp (storeAll keyCmp (fromJsonChild keyCmp) .nil members) .nil =
        dropNullChildren keyCmp (storeAll keyCmp (setChild keyCmp) .nil members) .nil := by
  constructor
  · rw [childrenText_eq, childrenText_eq, readings_storeAll_congr _ hnodup fun m hm => ?_]
    rw [fromJsonChild_bind_scratchHash, setChild_bind rfl, (h m hm).1]
  · rw [dropNullChildren_eq, dropNullChildren_eq, readings_storeAll_congr _ hnodup fun m hm => ?_]
    rw [fromJsonChild_bind_live, setChild_bind rfl, live_congr (h m hm).2]

theorem trees_agree_of_fits (x : Json) :
    x.WellFormed → WaitFits x → TreesAgree wcSHA1 keyCmp x := by
  induction x using Json.induct with
  | hnull => exact fun _ _ => ⟨rfl, rfl⟩
  | hboolean b => exact fun _ h => h.elim
  | hdouble d => exact fun _ _ => ⟨rfl, rfl⟩
  | hint i =>
      intro _ h
      have hclamp : jsonObjectGetInt i = i.toInt := by
        rw [WaitFits, FitsInt32] at h
        rw [jsonObjectGetInt]
        omega
      rw [TreesAgree, treenodeFromJsonR, dataCacheSetRoot, hclamp]
      exact ⟨rfl, rfl⟩
  | hstring s => exact fun _ _ => ⟨rfl, rfl⟩
  | harray elements ih =>
      intro hwf hfits
      rw [Json.WellFormed, elementsWellFormed_iff] at hwf
      rw [WaitFits, elementsFit_iff] at hfits
      obtain ⟨htext, hdrop⟩ := level_agrees (nodup_keys_indexed elements 0)
        (forall_mem_indexed.mpr fun x hx => ih x hx (hwf x hx) (hfits x hx))
      rw [TreesAgree, treenodeFromJsonR, dataCacheSetRoot, fromElements_eq, setElements_eq,
        scratchHash, scratchHash, dropNulls, dropNulls, htext, hdrop]
      exact ⟨rfl, rfl⟩
  | hobject members ih =>
      intro hwf hfits
      rw [Json.WellFormed, membersWellFormed_iff] at hwf
      rw [WaitFits, membersFit_iff] at hfits
      obtain ⟨htext, hdrop⟩ := level_agrees hwf.1 fun m hm =>
        ih m hm (hwf.2 m hm) (hfits m hm)
      rw [TreesAgree, treenodeFromJsonR, dataCacheSetRoot, fromMembers_eq, setMembers_eq,
        scratchHash, scratchHash, dropNulls, dropNulls, htext, hdrop]
      exact ⟨rfl, rfl⟩

theorem keys_sublist {members : List (Key × Json)} (hnodup : (members.map Prod.fst).Nodup) :
    ((readings (scratchHash wcSHA1)
        (storeAll keyCmp (fromJsonChild keyCmp) .nil members)).map Prod.fst).Sublist
      ((readings (scratchHash wcSHA1)
        (storeAll keyCmp (setChild keyCmp) .nil members)).map Prod.fst) := by
  have hanti : Antisymm fun a b : Key => keyCmp a b = .lt := ⟨fun a b hab hba => by
    rw [OrientedCmp.gt_of_lt hab] at hba
    cases hba⟩
  have hsorted : ∀ g, ((readings (scratchHash wcSHA1) (storeAll keyCmp g .nil members)).map
      Prod.fst).Pairwise fun a b => keyCmp a b = .lt := fun g =>
    List.pairwise_map.mpr (sorted_readings _ (storeAll_nil_spec g hnodup).1)
  refine List.sublist_of_subperm_of_pairwise (List.subperm_of_subset ?_ ?_) (hsorted _) (hsorted _)
  · refine (hsorted _).imp ?_
    rintro a b hab rfl
    have hself : keyCmp a a = .eq := ReflCmp.compare_self
    rw [hself] at hab
    cases hab
  · intro k hk
    obtain ⟨e, he, rfl⟩ := List.mem_map.mp hk
    obtain ⟨m, hm, hkey, hhash⟩ := (mem_readings_storeAll _ _ hnodup).mp he
    rw [fromJsonChild_bind_scratchHash] at hhash
    -- only a null leaves no entry in the cache, and it leaves none in the other tree
    have hsome : ∃ h, scratchHash wcSHA1 (dataCacheSetRoot keyCmp m.2) = some h := by
      cases hx : m.2 with
      | null =>
          rw [hx] at hhash
          cases hhash
      | _ => exact ⟨_, rfl⟩
    obtain ⟨h, hh⟩ := hsome
    refine List.mem_map.mpr
      ⟨(e.1, h), (mem_readings_storeAll _ _ hnodup).mpr ⟨m, hm, hkey, ?_⟩, rfl⟩
    rw [setChild_bind rfl, hh]

/-- Two levels with the same text agree on every member. -/
theorem level_members_agree {members : List (Key × Json)} (hnodup : (members.map Prod.fst).Nodup)
    (htext : childrenText wcSHA1 (storeAll keyCmp (fromJsonChild keyCmp) .nil members) =
      childrenText wcSHA1 (storeAll keyCmp (setChild keyCmp) .nil members)) :
    ∀ m ∈ members, scratchHash wcSHA1 (treenodeFromJsonR keyCmp m.2) =
      scratchHash wcSHA1 (dataCacheSetRoot keyCmp m.2) := by
  have hlength : ∀ (g : Json → Option Treenode), ∀ e ∈ readings (scratchHash wcSHA1)
      (storeAll keyCmp g .nil members), e.2.length = 28 := by
    intro g e he
    obtain ⟨m, hm, -, hhash⟩ := (mem_readings_storeAll _ g hnodup).mp he
    obtain ⟨n, -, hn⟩ := Option.bind_eq_some_iff.mp hhash
    exact length_scratchHash hn
  rw [childrenText_eq, childrenText_eq] at htext
  have hread := childTexts_inj (keys_sublist hnodup) (hlength _) (hlength _) htext
  have hmem : ∀ m ∈ members, ∀ (g : Json → Option Treenode) (h : TreenodeHash),
      (m.1, h) ∈ readings (scratchHash wcSHA1) (storeAll keyCmp g .nil members) ↔
        (g m.2).bind (scratchHash wcSHA1) = some h := by
    intro m hm g h
    rw [mem_readings_storeAll _ g hnodup]
    constructor
    · rintro ⟨m', hm', hkey, hhash⟩
      rwa [← List.inj_on_of_nodup_map hnodup hm' hm hkey]
    · exact fun hhash => ⟨m, hm, rfl, hhash⟩
  intro m hm
  refine Option.ext fun h => ?_
  rw [← fromJsonChild_bind_scratchHash, ← setChild_bind (φ := scratchHash wcSHA1) rfl,
    ← hmem m hm, ← hmem m hm, hread]

theorem fits_of_hashes_agree (x : Json) : x.WellFormed → NoCollision wcSHA1 keyCmp x →
    scratchHash wcSHA1 (treenodeFromJsonR keyCmp x) =
      scratchHash wcSHA1 (dataCacheSetRoot keyCmp x) → WaitFits x := by
  induction x using Json.induct with
  | hnull => exact fun _ _ _ => trivial
  | hboolean b =>
      intro _ _ h
      cases h
  | hdouble d => exact fun _ _ _ => trivial
  | hint i =>
      intro _ hno h
      by_contra hfits
      have htext := hno _ (List.mem_singleton.mpr rfl) (Option.some.inj h)
      exact intToDouble_clamped_ne hfits (numberText_inj htext)
  | hstring s => exact fun _ _ _ => trivial
  | harray elements ih =>
      intro hwf hno h
      rw [Json.WellFormed, elementsWellFormed_iff] at hwf
      have htext := hno _ List.mem_cons_self (Option.some.inj h)
      simp only [fromElements_eq, setElements_eq] at htext
      have hall := level_members_agree (nodup_keys_indexed elements 0) htext
      refine elementsFit_iff.mpr fun x hx => ih x hx (hwf x hx) (fun p hp => ?_) ?_
      · exact hno p (List.mem_cons_of_mem _ (mem_elementsPairs.mpr ⟨x, hx, hp⟩))
      · exact forall_mem_indexed (P := fun x => scratchHash wcSHA1 (treenodeFromJsonR keyCmp x) =
          scratchHash wcSHA1 (dataCacheSetRoot keyCmp x)).mp hall x hx
  | hobject members ih =>
      intro hwf hno h
      rw [Json.WellFormed, membersWellFormed_iff] at hwf
      have htext := hno _ List.mem_cons_self (Option.some.inj h)
      simp only [fromMembers_eq, setMembers_eq] at htext
      have hall := level_members_agree hwf.1 htext
      refine membersFit_iff.mpr fun m hm => ih m hm (hwf.2 m hm) (fun p hp => ?_) (hall m hm)
      exact hno p (List.mem_cons_of_mem _ (mem_membersPairs.mpr ⟨m, hm, hp⟩))

/-- **Waiting for a document ends exactly when the cache holds it** if and only
if the document has no boolean and no integer outside 32 bits. That the
condition is necessary rests on the digest telling different texts apart. -/
theorem wait_agrees_iff_fits (g16 : DoubleBits → Bytes) (root : Treenode) {x : Json}
    (hwf : x.WellFormed) :
    (WaitFits x → WaitAgrees wcSHA1 keyCmp g16 root x) ∧
      (NoCollision wcSHA1 keyCmp x → WaitAgrees wcSHA1 keyCmp g16 root x → WaitFits x) := by
  have hset : dataCacheSet keyCmp [] x root = dataCacheSetRoot keyCmp x := rfl
  have hfromOk : (treenodeFromJsonR keyCmp x).Forall (NodeOk wcSHA1 keyCmp) :=
    treenodeFromJsonR_ok x
  have hcacheOk : (dataCacheSetRoot keyCmp x).Forall (NodeOk wcSHA1 keyCmp) := dataCacheSetRoot_ok x
  have hfrom := (treenodeHashGet_spec _ hfromOk).1
  have hcache := (treenodeHashGet_spec _ hcacheOk).1
  rw [WaitAgrees, hset, hfrom, hcache]
  constructor
  · intro hfits
    have hagree : TreesAgree wcSHA1 keyCmp x := trees_agree_of_fits x hwf hfits
    obtain ⟨hhash, hdrop⟩ := hagree
    exact ⟨hhash, by rw [hdrop]⟩
  · exact fun hno h => fits_of_hashes_agree x hwf hno h.1

end Agree

/-- `{"a":"x","b":7,"c":null}`. -/
def mixedDocument : Json := .object [([97], .string [120]), ([98], .int 7), ([99], .null)]

/-- SHA-1 of the three texts that are hashed for the document. -/
def mixedSHA1 : SHA1 := fun text i =>
  (if text = ascii "string:x" then
    [56, 148, 158, 70, 115, 245, 153, 253, 47, 78, 184, 106, 238, 44, 230, 88, 99, 226, 55, 30]
  else if text = ascii "number:401c000000000000" then
    [239, 4, 32, 50, 182, 166, 237, 21, 106, 84, 136, 63, 197, 22, 86, 61, 252, 160, 27, 29]
  else
    [85, 127, 150, 166, 104, 150, 120, 111, 240, 73, 10, 207, 159, 7, 128, 79, 225, 22, 212,
      254]).getD i.val 0

/-- The document is awaited as it is cached, and has to fit for that. -/
theorem mixed_document_awaited :
    WaitAgrees mixedSHA1 strcmp (fun _ => [55]) .leafNull mixedDocument ∧
      WaitFits mixedDocument := by
  have hwf : mixedDocument.WellFormed := ⟨by decide, trivial, trivial, trivial, trivial⟩
  have hspec : (WaitFits mixedDocument →
        WaitAgrees mixedSHA1 strcmp (fun _ => [55]) .leafNull mixedDocument) ∧
      (NoCollision mixedSHA1 strcmp mixedDocument →
        WaitAgrees mixedSHA1 strcmp (fun _ => [55]) .leafNull mixedDocument →
          WaitFits mixedDocument) := wait_agrees_iff_fits _ _ hwf
  have hseven : FitsInt32 (7 : Int64).toInt := by decide
  have hfits : WaitFits mixedDocument := ⟨trivial, hseven, trivial, trivial⟩
  have hpairs : ∀ p ∈ textPairs mixedSHA1 strcmp mixedDocument, p.1 = p.2 := by decide +kernel
  have hagrees := hspec.1 hfits
  exact ⟨hagrees, hspec.2 (fun p hp _ => hpairs p hp) hagrees⟩

/-- Whatever the digest, a boolean is not awaited as it is cached. -/
theorem true_never_awaited :
    ¬ ∃ (wcSHA1 : SHA1) (g16 : DoubleBits → Bytes) (root : Treenode),
      ∀ x : Json, x.WellFormed → WaitAgrees wcSHA1 strcmp g16 root x := by
  rintro ⟨wcSHA1, g16, root, hall⟩
  have hhash := (hall (.boolean true) trivial).1
  cases hhash

end WebcomSdk.Cache

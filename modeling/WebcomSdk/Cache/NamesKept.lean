import WebcomSdk.Cache.KeyAgreement
import WebcomSdk.Datasync.KeyOrder

/-!
The names of an object under `wc_datasync_key_cmp`. Two names that the
comparison takes for equal share one place among the children: the value of the
second is not stored, or its null removes the first. The members of a document
are all kept exactly when this does not happen at any level.
-/

namespace WebcomSdk.Cache

open WebcomSdk.Lib WebcomSdk.Collection WebcomSdk.Datasync Std

/-! ### One level -/

section Level

variable {cmp : Key → Key → Ordering} {t : Children}

theorem size_store (key : Key) (o : Option Treenode) (t : Children) :
    (store cmp key o t).size ≤ t.size + (if o.isSome then 1 else 0) ∧
      ((store cmp key o t).size = t.size + (if o.isSome then 1 else 0) ↔
        avlFind cmp key t = none) := by
  cases o with
  | none =>
      have hlen : t.toList.length = (avlRemove cmp key t).toList.length +
          if (avlRemoveRec cmp key t).2 then 1 else 0 := length_avlRemoveRec key t
      rw [found_avlRemoveRec, AvlTree.length_toList, AvlTree.length_toList] at hlen
      rw [store, avlFind_eq_none_iff]
      cases hget : avlGet cmp key t with
      | none =>
          rw [hget] at hlen
          simp at hlen ⊢
          omega
      | some e =>
          rw [hget] at hlen
          simp at hlen ⊢
          omega
  | some n =>
      rw [store]
      cases hfind : avlFind cmp key t with
      | some n' =>
          rw [internalAddNew_of_find_some n hfind]
          simp
      | none =>
          rw [internalAddNew_of_find_none n hfind, ← AvlTree.length_toList, length_avlInsertRec,
            AvlTree.length_toList]
          simp

theorem mem_store_of_free {key : Key} (hfree : avlFind cmp key t = none) {o : Option Treenode}
    {e : Key × Treenode} :
    e ∈ (store cmp key o t).toList ↔ (∃ n, o = some n ∧ e = (key, n)) ∨ e ∈ t.toList := by
  cases o with
  | none => simp [store, avlRemove_of_get_none (avlFind_eq_none_iff.mp hfree)]
  | some n => simp [store, internalAddNew_of_find_none n hfree, mem_avlInsertRec]

/-- How many members have a value to store. -/
def stored (g : Json → Option Treenode) (members : List (Key × Json)) : ℕ :=
  members.countP fun m => (g m.2).isSome

theorem size_storeAll_le (g : Json → Option Treenode) (members : List (Key × Json)) :
    ∀ t : Children, (storeAll cmp g t members).size ≤ t.size + stored g members := by
  induction members with
  | nil => exact fun t => le_rfl
  | cons m members ih =>
      intro t
      have hstep : (store cmp m.1 (g m.2) t).size ≤ t.size + if (g m.2).isSome then 1 else 0 :=
        (size_store m.1 (g m.2) t).1
      have hrest := ih (store cmp m.1 (g m.2) t)
      rw [stored, List.countP_cons, ← stored]
      exact hrest.trans (by omega)

variable [TransCmp cmp]

theorem ordered_store (ht : t.Ordered cmp) (key : Key) (o : Option Treenode) :
    (store cmp key o t).Ordered cmp := by
  cases o with
  | none => exact ordered_avlRemove ht key
  | some n => exact ordered_internalAddNew ht key n

/-- After a store in a free place, a place is free if it was before and the
stored value is not in it. -/
theorem free_store_iff (ht : t.Ordered cmp) {m : Key × Json} {g : Json → Option Treenode}
    (hfree : avlFind cmp m.1 t = none) {members : List (Key × Json)} :
    (∀ m' ∈ members, avlFind cmp m'.1 (store cmp m.1 (g m.2) t) = none) ↔
      (∀ m' ∈ members, avlFind cmp m'.1 t = none) ∧
        ∀ m' ∈ members, cmp m'.1 m.1 = .eq → g m.2 = none := by
  have hord : (store cmp m.1 (g m.2) t).Ordered cmp := ordered_store ht m.1 (g m.2)
  have hone : ∀ m' : Key × Json, avlFind cmp m'.1 (store cmp m.1 (g m.2) t) = none ↔
      avlFind cmp m'.1 t = none ∧ (cmp m'.1 m.1 = .eq → g m.2 = none) := by
    intro m'
    rw [avlFind_eq_none_iff, avlFind_eq_none_iff, avlGet_eq_none_iff hord, avlGet_eq_none_iff ht]
    simp only [mem_store_of_free hfree]
    constructor
    · intro h
      refine ⟨fun e he => h e (.inr he), fun heq => ?_⟩
      by_contra hsome
      obtain ⟨n, hn⟩ := Option.ne_none_iff_exists'.mp hsome
      exact h (m.1, n) (.inl ⟨n, hn, rfl⟩) heq
    · rintro ⟨hold, hnew⟩ e (⟨n, hn, rfl⟩ | he)
      · intro heq
        rw [hnew heq] at hn
        cases hn
      · exact hold e he
  simp only [hone, imp_and, forall_and]

/-- **Every value finds a place** exactly when the places are free and no stored
member has the place of a later one. -/
theorem size_storeAll_iff (g : Json → Option Treenode) (members : List (Key × Json)) :
    ∀ t : Children, t.Ordered cmp →
      ((storeAll cmp g t members).size = t.size + stored g members ↔
        (∀ m ∈ members, avlFind cmp m.1 t = none) ∧
          members.Pairwise fun m m' => cmp m'.1 m.1 = .eq → g m.2 = none) := by
  induction members with
  | nil => exact fun t _ => by simp [storeAll, stored]
  | cons m members ih =>
      intro t ht
      have hstep : _ ∧ ((store cmp m.1 (g m.2) t).size = _ ↔ avlFind cmp m.1 t = none) :=
        size_store m.1 (g m.2) t
      have hord : (store cmp m.1 (g m.2) t).Ordered cmp := ordered_store ht m.1 (g m.2)
      have hle : (storeAll cmp g (store cmp m.1 (g m.2) t) members).size ≤ _ :=
        size_storeAll_le g members (store cmp m.1 (g m.2) t)
      have hsplit : (storeAll cmp g t (m :: members)).size = t.size + stored g (m :: members) ↔
          avlFind cmp m.1 t = none ∧ (storeAll cmp g (store cmp m.1 (g m.2) t) members).size =
            (store cmp m.1 (g m.2) t).size + stored g members := by
        rw [← hstep.2, stored, List.countP_cons, ← stored]
        show (storeAll cmp g (store cmp m.1 (g m.2) t) members).size = _ ↔ _
        omega
      rw [hsplit, ih _ hord, List.forall_mem_cons, List.pairwise_cons, and_assoc]
      exact and_congr_right fun hfree => by rw [free_store_iff ht hfree, and_assoc]

/-- Then every value stored is among the entries. -/
theorem mem_storeAll_of_apart (g : Json → Option Treenode) {members : List (Key × Json)} :
    ∀ t : Children, t.Ordered cmp → (∀ m ∈ members, avlFind cmp m.1 t = none) →
      (members.Pairwise fun m m' => cmp m'.1 m.1 = .eq → g m.2 = none) →
        (storeAll cmp g t members).Ordered cmp ∧ ∀ e : Key × Treenode,
          (e ∈ t.toList ∨ ∃ m ∈ members, m.1 = e.1 ∧ g m.2 = some e.2) →
            e ∈ (storeAll cmp g t members).toList := by
  induction members with
  | nil => exact fun t ht _ _ => ⟨ht, fun e he => he.elim id (by simp)⟩
  | cons m members ih =>
      intro t ht hfree hpair
      rw [List.forall_mem_cons] at hfree
      have hord : (store cmp m.1 (g m.2) t).Ordered cmp := ordered_store ht m.1 (g m.2)
      have hmem : ∀ e, e ∈ (store cmp m.1 (g m.2) t).toList ↔
          (∃ n, g m.2 = some n ∧ e = (m.1, n)) ∨ e ∈ t.toList := fun e => mem_store_of_free hfree.1
      obtain ⟨hhead, hpair⟩ := List.pairwise_cons.mp hpair
      obtain ⟨hord', hall⟩ := ih _ hord ((free_store_iff ht hfree.1).mpr ⟨hfree.2, hhead⟩) hpair
      refine ⟨hord', fun e he => hall e ?_⟩
      rw [hmem]
      rcases he with he | ⟨m', hm', hkey, hval⟩
      · exact .inl (.inr he)
      · rcases List.mem_cons.mp hm' with rfl | hm'
        · exact .inl (.inl ⟨e.2, hval, by rw [hkey]⟩)
        · exact .inr ⟨m', hm', hkey, hval⟩

end Level

/-! ### Documents -/

def Json.isNull : Json → Bool
  | .null => true
  | _ => false

/-- How many members of the document are not null. -/
def Json.nonNull (x : Json) : ℕ := x.members.countP fun m => !m.2.isNull

def Treenode.childCount : Treenode → ℕ
  | .internal t _ => t.size
  | _ => 0

/-- What the document has at `path`, unless it is a null below the root, is
found there in the tree: the value, with one child per member that is not null. -/
def Json.KeptAt (x : Json) (n : Treenode) (path : Path) : Prop :=
  ∀ y, x.get path = some y → (path = [] ∨ y.isNull = false) →
    ∃ c, dataCacheGetR wcDatasyncKeyOrd path n = some c ∧ y.Shows c ∧ c.childCount = y.nonNull

/-- Every value of the document is found under its own names. -/
def Json.Kept (x : Json) (n : Treenode) : Prop := ∀ path, x.KeptAt n path

/-- The differences of integer names of one object survive the conversion to
`int`. -/
def Json.NamesFit (x : Json) : Prop :=
  x.Everywhere fun members => ∀ m ∈ members, ∀ m' ∈ members, DifferenceFits m.1 m'.1

/-- No member that is not null is tied with a later one of its object. -/
def Json.NamesApart (x : Json) : Prop :=
  x.Everywhere fun members => members.Pairwise fun m m' => Tied m.1 m'.1 → m.2.isNull = true

section Documents

theorem Json.induct_members {P : Json → Prop} (h : ∀ x : Json, (∀ m ∈ x.members, P m.2) → P x)
    (x : Json) : P x := by
  induction x using Json.induct with
  | harray elements ih => exact h _ (forall_mem_indexed.mpr ih)
  | hobject members ih => exact h _ ih
  | _ => exact h _ (List.forall_mem_nil _)

theorem isSome_setChild {cmp : Key → Key → Ordering} (x : Json) :
    (setChild cmp x).isSome = !x.isNull := by
  cases x <;> rfl

theorem stored_setChild {cmp : Key → Key → Ordering} (x : Json) :
    stored (setChild cmp) x.members = x.nonNull := by
  simp only [stored, Json.nonNull, isSome_setChild]

theorem setChild_of_nonNull {cmp : Key → Key → Ordering} {x : Json} (h : x.isNull = false) :
    setChild cmp x = some (dataCacheSetRoot cmp x) := by
  cases x with
  | null => cases h
  | _ => rfl

theorem shows_setRoot {cmp : Key → Key → Ordering} (x : Json) :
    x.Shows (dataCacheSetRoot cmp x) := by
  cases x with
  | array elements => exact ⟨_, rfl⟩
  | object members => exact ⟨_, rfl⟩
  | _ => rfl

theorem childCount_setRoot {cmp : Key → Key → Ordering} (x : Json) :
    (dataCacheSetRoot cmp x).childCount = (storeAll cmp (setChild cmp) .nil x.members).size := by
  have hcases : dataCacheSetRoot cmp x = _ ∨ _ := dataCacheSetRoot_cases x
  rcases hcases with hroot | ⟨hmembers, hleaf⟩
  · rw [hroot]
    rfl
  · rw [hmembers]
    cases hroot : dataCacheSetRoot cmp x with
    | internal t hash => exact absurd hroot (hleaf t hash)
    | _ => rfl

theorem get_setRoot_cons {cmp : Key → Key → Ordering} (x : Json) (key : Key) (path : Path) :
    dataCacheGetR cmp (key :: path) (dataCacheSetRoot cmp x) =
      (avlFind cmp key (storeAll cmp (setChild cmp) .nil x.members)).bind
        (dataCacheGetR cmp path) := by
  have hcases : dataCacheSetRoot cmp x = _ ∨ _ := dataCacheSetRoot_cases x
  rcases hcases with hroot | ⟨hmembers, hleaf⟩
  · rw [hroot, dataCacheGetR_cons]
  · rw [hmembers, dataCacheGetR_leaf hleaf (List.cons_ne_nil key path)]
    rfl

/-! ### One level of a document -/

theorem agreeOn_names {members : List (Key × Json)}
    (hfits : ∀ m ∈ members, ∀ m' ∈ members, DifferenceFits m.1 m'.1) :
    AgreeOn {k | k ∈ members.map Prod.fst} wcDatasyncKeyOrd keyValueOrd := by
  intro k hk k' hk'
  obtain ⟨m, hm, rfl⟩ := List.mem_map.mp hk
  obtain ⟨m', hm', rfl⟩ := List.mem_map.mp hk'
  exact keyOrd_eq_valueOrd (hfits m hm m' hm')

/-- The names of a level that fit are stored by their values. -/
theorem storeAll_keyOrd {members : List (Key × Json)}
    (hfits : ∀ m ∈ members, ∀ m' ∈ members, DifferenceFits m.1 m'.1)
    (g : Json → Option Treenode) :
    storeAll wcDatasyncKeyOrd g .nil members = storeAll keyValueOrd g .nil members ∧
      AvlTree.KeysIn {k | k ∈ members.map Prod.fst} (storeAll wcDatasyncKeyOrd g .nil members) :=
  storeAll_level_agree (agreeOn_names hfits) (fun _ hm => List.mem_map_of_mem hm) g .nil
    childrenIn_nil.keys

/-- The places of a level are apart when no stored member is tied with a later
one. -/
theorem places_apart_iff {members : List (Key × Json)} (hnodup : (members.map Prod.fst).Nodup)
    (hfits : ∀ m ∈ members, ∀ m' ∈ members, DifferenceFits m.1 m'.1) :
    (members.Pairwise fun m m' => keyValueOrd m'.1 m.1 = .eq →
        setChild wcDatasyncKeyOrd m.2 = none) ↔
      members.Pairwise fun m m' => Tied m.1 m'.1 → m.2.isNull = true := by
  have hne : members.Pairwise fun m m' => m.1 ≠ m'.1 := List.pairwise_map.mp hnodup
  have hpairs : members.Pairwise fun m m' =>
      (keyValueOrd m'.1 m.1 = .eq ↔ Tied m.1 m'.1) := by
    apply (List.Pairwise.and_mem.mp hne).imp
    intro m m' h
    rw [← keyValueOrd_eq_iff (hfits m h.1 m' h.2.1) h.2.2]
    exact ⟨OrientedCmp.eq_symm, OrientedCmp.eq_symm⟩
  have hnull : ∀ x : Json, setChild wcDatasyncKeyOrd x = none ↔ x.isNull = true := by
    intro x
    rw [← Option.isNone_iff_eq_none, ← Option.not_isSome, isSome_setChild, Bool.not_not]
  constructor
  · exact fun h => (h.and hpairs).imp fun hm ht => (hnull _).mp (hm.1 (hm.2.mpr ht))
  · exact fun h => (h.and hpairs).imp fun hm ht => (hnull _).mpr (hm.1 (hm.2.mp ht))

/-- **One level**: there is a child for every member that is not null exactly
when the places are apart. -/
theorem level_count_iff {x : Json} (hnodup : (x.members.map Prod.fst).Nodup)
    (hfits : ∀ m ∈ x.members, ∀ m' ∈ x.members, DifferenceFits m.1 m'.1) :
    (dataCacheSetRoot wcDatasyncKeyOrd x).childCount = x.nonNull ↔
      x.members.Pairwise fun m m' => Tied m.1 m'.1 → m.2.isNull = true := by
  have hnil : (AvlTree.nil : Children).Ordered keyValueOrd := AvlTree.ordered_nil
  have hsize := size_storeAll_iff (setChild wcDatasyncKeyOrd) x.members .nil hnil
  have hfree : ∀ m ∈ x.members, avlFind keyValueOrd m.1 (AvlTree.nil : Children) = none :=
    fun _ _ => rfl
  rw [AvlTree.size, Nat.zero_add, stored_setChild, and_iff_right hfree,
    places_apart_iff hnodup hfits] at hsize
  rw [childCount_setRoot, (storeAll_keyOrd hfits _).1, hsize]

/-- Then each of them is found under its name. -/
theorem level_find {x : Json} (hnodup : (x.members.map Prod.fst).Nodup)
    (hfits : ∀ m ∈ x.members, ∀ m' ∈ x.members, DifferenceFits m.1 m'.1)
    (hapart : x.members.Pairwise fun m m' => Tied m.1 m'.1 → m.2.isNull = true)
    {m : Key × Json} (hm : m ∈ x.members) (hnull : m.2.isNull = false) :
    avlFind wcDatasyncKeyOrd m.1 (storeAll wcDatasyncKeyOrd (setChild wcDatasyncKeyOrd) .nil
      x.members) = some (dataCacheSetRoot wcDatasyncKeyOrd m.2) := by
  obtain ⟨hsame, hin⟩ := storeAll_keyOrd hfits (setChild wcDatasyncKeyOrd)
  have hnil : (AvlTree.nil : Children).Ordered keyValueOrd := AvlTree.ordered_nil
  obtain ⟨hord, hmem⟩ := mem_storeAll_of_apart (setChild wcDatasyncKeyOrd) .nil hnil
    (fun _ _ => rfl) ((places_apart_iff hnodup hfits).mpr hapart)
  have hentry := hmem (m.1, dataCacheSetRoot wcDatasyncKeyOrd m.2)
    (.inr ⟨m, hm, rfl, setChild_of_nonNull hnull⟩)
  rw [avlFind_agree (agreeOn_names hfits) (List.mem_map_of_mem hm) hin, hsame, avlFind,
    (avlGet_eq_some_iff hord).mpr ⟨hentry, ReflCmp.compare_self⟩]
  rfl

/-! ### All levels -/

theorem Json.get_cons (x : Json) (key : Key) (path : Path) :
    x.get (key :: path) = (x.members.lookup key).bind (Json.get path) := rfl

theorem lookup_of_mem {members : List (Key × Json)} (hnodup : (members.map Prod.fst).Nodup)
    {m : Key × Json} (hm : m ∈ members) : members.lookup m.1 = some m.2 := by
  obtain ⟨before, after, rfl⟩ := List.append_of_mem hm
  rw [List.map_append, List.map_cons] at hnodup
  have hbefore : ∀ b ∈ before, m.1 ≠ b.1 := by
    intro b hb heq
    have hdisjoint := (List.nodup_append.mp hnodup).2.2
    exact hdisjoint b.1 (List.mem_map_of_mem hb) m.1 List.mem_cons_self heq.symm
  exact List.lookup_eq_some_iff.mpr ⟨before, after, rfl, fun b hb => by simpa using hbefore b hb⟩

theorem Json.get_null {path : Path} {y : Json} (h : Json.get path .null = some y) :
    y.isNull = true := by
  cases path with
  | nil => exact Option.some.inj h ▸ rfl
  | cons key path => cases h

/-- **A document is kept exactly when no stored member is tied with a later one,
at any level.** -/
theorem kept_iff (x : Json) : x.WellFormed → x.NamesFit →
    (x.Kept (dataCacheSetRoot wcDatasyncKeyOrd x) ↔ x.NamesApart) := by
  induction x using Json.induct_members with
  | h x ih =>
      intro hwf hfits
      obtain ⟨hfitsHere, hfitsBelow⟩ := everywhere_iff.mp hfits
      have hnodup := Json.members_nodup hwf
      have hcount := level_count_iff hnodup hfitsHere
      rw [Json.NamesApart, everywhere_iff]
      constructor
      · intro hkept
        obtain ⟨c, hc, -, hchildren⟩ := hkept [] x rfl (.inl rfl)
        obtain rfl := Option.some.inj hc
        have hapart := hcount.mp hchildren
        refine ⟨hapart, fun m hm => ?_⟩
        apply (ih m hm (Json.members_wellFormed hwf m hm) (hfitsBelow m hm)).mp
        intro path y hy hpath
        cases hnull : m.2.isNull with
        | true =>
            -- a null has no value below the root
            have hx : m.2 = .null := by
              cases hm2 : m.2 <;> rw [hm2] at hnull <;> first | rfl | cases hnull
            rw [hx] at hy ⊢
            have hynull := Json.get_null hy
            rcases hpath with rfl | hpath
            · obtain rfl := Option.some.inj hy
              exact ⟨_, rfl, rfl, rfl⟩
            · rw [hynull] at hpath
              cases hpath
        | false =>
            have hget : x.get (m.1 :: path) = some y := by
              rw [Json.get_cons, lookup_of_mem hnodup hm]
              exact hy
            have hy' : y.isNull = false := by
              rcases hpath with rfl | hpath
              · exact Option.some.inj hy ▸ hnull
              · exact hpath
            obtain ⟨c, hc, hshows, hchildren⟩ := hkept (m.1 :: path) y hget (.inr hy')
            rw [get_setRoot_cons, level_find hnodup hfitsHere hapart hm hnull] at hc
            exact ⟨c, hc, hshows, hchildren⟩
      · rintro ⟨hapart, hbelow⟩ path y hy hpath
        cases path with
        | nil =>
            obtain rfl := Option.some.inj hy
            exact ⟨_, rfl, shows_setRoot x, hcount.mpr hapart⟩
        | cons key path =>
            have hy' : y.isNull = false := hpath.resolve_left (List.cons_ne_nil key path)
            rw [Json.get_cons] at hy
            obtain ⟨z, hlookup, hz⟩ := Option.bind_eq_some_iff.mp hy
            obtain ⟨before, after, hsplit, -⟩ := List.lookup_eq_some_iff.mp hlookup
            have hm : (key, z) ∈ x.members := by simp [hsplit]
            have hnull : z.isNull = false := by
              cases z with
              | null => rw [Json.get_null hz] at hy'; cases hy'
              | _ => rfl
            have hkept := (ih _ hm (Json.members_wellFormed hwf _ hm) (hfitsBelow _ hm)).mpr
              (hbelow _ hm)
            obtain ⟨c, hc, hshows, hchildren⟩ := hkept path y hz (.inr hy')
            refine ⟨c, ?_, hshows, hchildren⟩
            rw [get_setRoot_cons, level_find hnodup hfitsHere hapart hm hnull]
            exact hc

end Documents

/-! ### Documents in a cache -/

/-- `data_cache_set_ex` stores the object under its path with every member
kept. -/
def MembersKept (path : Path) (members : List (Key × Json)) (root : Treenode) : Prop :=
  ∃ n, dataCacheGetR wcDatasyncKeyOrd path
      (dataCacheSetEx wcDatasyncKeyOrd path (.object members) root) = some n ∧
    (Json.object members).Kept n

/-- `{"01": true, "+2": null}`. -/
def sampleNames : List (Key × Json) := [([48, 49], .boolean true), ([43, 50], .null)]

end WebcomSdk.Cache

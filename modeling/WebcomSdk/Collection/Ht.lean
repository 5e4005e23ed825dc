import WebcomSdk.Lib.Buckets

/-!
The hash table of `lib/collection/ht.c`. A key is what the hash and equality
functions see of it, and a value is a pointer, `none` for NULL. The bits of an
`unsigned` are 32, those of a `wc_hash_t` 64.
-/

namespace WebcomSdk.Collection

open WebcomSdk.Lib

/-- `struct ht_item`, without `next`. -/
structure HtItem (κ ν : Type) where
  hash : UInt64
  key : κ
  value : Option ν
  deriving Repr, DecidableEq

/-- What a pointer to an entry points to: with NULL nothing, an entry and what its
`next` points to, or an entry that has been freed. -/
inductive HtChain (κ ν : Type) where
  | null
  | freed
  | item (e : HtItem κ ν) (next : HtChain κ ν)
  deriving Repr, DecidableEq

/-- `struct ht_table`. Of the functions that free a key and a value, it is known
whether they are there. -/
structure HtTable (κ ν : Type) where
  hashTwoFactor : ℕ
  count : ℕ
  table : List (HtChain κ ν)
  mask : UInt64
  keyEq : κ → κ → Bool
  keyHash : κ → UInt64
  keyFree : Bool
  valFree : Bool

variable {κ ν : Type}

/-- `HT_MIN_TWO_FACTOR`, also `HT_INIT_TWO_FACTOR`. -/
def htMinTwoFactor : ℕ := 3

def htMaxTwoFactor : ℕ := 31

/-- The number of values of an `unsigned`. -/
def unsignedRange : ℕ := 2 ^ 32

def pow2 (u : ℕ) : ℕ := 1 <<< u

def mask (factor : ℕ) : UInt64 := UInt64.ofNat (pow2 factor) - 1

/-- The place of a hash in the table. -/
def htIndex (hash mask : UInt64) : ℕ := (hash &&& mask).toNat

namespace HtTable

variable (t : HtTable κ ν)

def htCapacity : ℕ := pow2 t.hashTwoFactor

/-- `ht_bucket_addr`, as a place in the table. -/
def htBucketAddr (key : κ) : ℕ := htIndex (t.keyHash key) t.mask

def htIsOverloaded : Bool :=
  t.hashTwoFactor < htMaxTwoFactor && t.htCapacity < ((t.count >>> 1) + t.count) % unsignedRange

def htIsUnderloaded : Bool :=
  htMinTwoFactor < t.hashTwoFactor && (t.count <<< 1) % unsignedRange < t.htCapacity

end HtTable

/-- The inner loop of `ht_rehash`. `none` says that a freed entry is read. -/
def htRelink (newMask : UInt64) : HtChain κ ν → List (HtChain κ ν) → Option (List (HtChain κ ν))
  | .null, newTable => some newTable
  | .freed, _ => none
  | .item e next, newTable =>
      htRelink newMask next (newTable.modify (htIndex e.hash newMask) (.item e))

def htRehash (t : HtTable κ ν) (newFactor : ℕ) : Option (HtTable κ ν) :=
  ((t.table.take t.htCapacity).foldlM
    (fun newTable e => htRelink (mask newFactor) e newTable)
    (List.replicate (pow2 newFactor) .null)).map
  fun table => { t with table, hashTwoFactor := newFactor, mask := mask newFactor }

def htEnlarge (t : HtTable κ ν) : Option (HtTable κ ν) := htRehash t (t.hashTwoFactor + 1)

def htReduce (t : HtTable κ ν) : Option (HtTable κ ν) := htRehash t (t.hashTwoFactor - 1)

def htNew (hash : κ → UInt64) (eq : κ → κ → Bool) (kf vf : Bool) : HtTable κ ν where
  hashTwoFactor := htMinTwoFactor
  count := 0
  table := List.replicate (pow2 htMinTwoFactor) .null
  mask := mask htMinTwoFactor
  keyEq := eq
  keyHash := hash
  keyFree := kf
  valFree := vf

/-- What `ht_insert` does with a new entry. -/
def HtTable.link (t : HtTable κ ν) (e : HtItem κ ν) : HtTable κ ν :=
  { t with
    table := t.table.modify (htIndex e.hash t.mask) (.item e)
    count := (t.count + 1) % unsignedRange }

/-! ### Chains and tables -/

namespace HtChain

def items : HtChain κ ν → List (HtItem κ ν)
  | null => []
  | freed => []
  | item e next => e :: next.items

/-- No entry of the chain has been freed. -/
def Live : HtChain κ ν → Prop
  | null => True
  | freed => False
  | item _ next => next.Live

end HtChain

/-- The entries of a table, bucket after bucket. -/
def HtTable.entries (t : HtTable κ ν) : List (HtItem κ ν) := t.table.flatMap HtChain.items

/-- The buckets are those of a mask: nothing is freed, and each entry sits where
its hash and the mask say. -/
structure Bucketed (mask : UInt64) (table : List (HtChain κ ν)) : Prop where
  live : ∀ c ∈ table, c.Live
  placed : Placed HtChain.items (fun e => htIndex e.hash mask) table

/-- The factor is an allowed one, the mask and the size of the table go with it,
and each entry sits in its bucket. -/
structure HtTable.Sound (t : HtTable κ ν) : Prop where
  min_le : htMinTwoFactor ≤ t.hashTwoFactor
  le_max : t.hashTwoFactor ≤ htMaxTwoFactor
  mask_eq : t.mask = Collection.mask t.hashTwoFactor
  length : t.table.length = t.htCapacity
  bucketed : Bucketed t.mask t.table

theorem pow2_eq (u : ℕ) : pow2 u = 2 ^ u := Nat.one_shiftLeft u

theorem toNat_mask {factor : ℕ} (h : factor ≤ htMaxTwoFactor) :
    (mask factor).toNat = 2 ^ factor - 1 := by
  have hpos : 1 ≤ 2 ^ factor := Nat.one_le_two_pow
  have hlt : 2 ^ factor < 2 ^ 64 := Nat.pow_lt_pow_right (by decide) (h.trans_lt (by decide))
  have hto : (UInt64.ofNat (2 ^ factor)).toNat = 2 ^ factor := UInt64.toNat_ofNat_of_lt hlt
  have hle : (1 : UInt64) ≤ UInt64.ofNat (2 ^ factor) := by
    rw [UInt64.le_iff_toNat_le, hto]
    exact hpos
  rw [mask, pow2_eq, UInt64.toNat_sub_of_le _ _ hle, hto]
  rfl

/-- Under the mask of a factor, every hash has its place in the table. -/
theorem htIndex_lt {factor : ℕ} (h : factor ≤ htMaxTwoFactor) (hash : UInt64) :
    htIndex hash (mask factor) < pow2 factor := by
  have hpos : 1 ≤ 2 ^ factor := Nat.one_le_two_pow
  rw [htIndex, UInt64.toNat_and, toNat_mask h, pow2_eq]
  exact lt_of_le_of_lt Nat.and_le_right (by omega)

/-! ### `ht_rehash` -/

theorem bucketed_replicate (mask : UInt64) (n : ℕ) :
    Bucketed mask (List.replicate n (.null : HtChain κ ν)) where
  live := by
    intro c hc
    obtain rfl := List.eq_of_mem_replicate hc
    exact trivial
  placed := placed_replicate rfl n

/-- An entry is linked in front of its bucket. -/
theorem Bucketed.push {mask : UInt64} {table : List (HtChain κ ν)} (h : Bucketed mask table)
    (e : HtItem κ ν) : Bucketed mask (table.modify (htIndex e.hash mask) (.item e)) where
  live := by
    intro c hc
    obtain ⟨i, hi⟩ := List.mem_iff_getElem?.mp hc
    rw [List.getElem?_modify] at hi
    obtain ⟨c', hc', rfl⟩ := Option.map_eq_some_iff.mp hi
    have hlive : c'.Live := h.live c' (List.mem_of_getElem? hc')
    split
    · exact hlive
    · exact hlive
  placed := by
    refine h.placed.modify fun c hc a ha => ?_
    rcases List.mem_cons.mp ha with rfl | ha
    · rfl
    · exact h.placed _ c hc a ha

theorem sound_htNew (hash : κ → UInt64) (eq : κ → κ → Bool) (kf vf : Bool) :
    (htNew hash eq kf vf : HtTable κ ν).Sound where
  min_le := Nat.le_refl _
  le_max := show htMinTwoFactor ≤ htMaxTwoFactor by decide
  mask_eq := rfl
  length := List.length_replicate
  bucketed := bucketed_replicate _ _

namespace HtTable

variable {t : HtTable κ ν}

theorem Sound.index_lt (h : t.Sound) (hash : UInt64) : htIndex hash t.mask < t.table.length := by
  rw [h.mask_eq, h.length]
  exact htIndex_lt h.le_max hash

theorem Sound.link (h : t.Sound) (e : HtItem κ ν) : (t.link e).Sound where
  min_le := h.min_le
  le_max := h.le_max
  mask_eq := h.mask_eq
  length := (List.length_modify _ _ _).trans h.length
  bucketed := h.bucketed.push e

theorem Sound.entries_link (h : t.Sound) (e : HtItem κ ν) :
    (t.link e).entries.Perm (e :: t.entries) :=
  flatMap_modify_cons (h.index_lt e.hash) fun _ => rfl

end HtTable

/-- What the loops of `ht_rehash` keep: the entries of the old table that have been
met are in the new one. -/
theorem htRelink_spec {newMask : UInt64} {c : HtChain κ ν} (hc : c.Live)
    {newTable : List (HtChain κ ν)} (h : Bucketed newMask newTable)
    (hfit : ∀ hash, htIndex hash newMask < newTable.length) :
    ∃ newTable', htRelink newMask c newTable = some newTable' ∧ Bucketed newMask newTable' ∧
      newTable'.length = newTable.length ∧
      (newTable'.flatMap HtChain.items).Perm (c.items ++ newTable.flatMap HtChain.items) := by
  induction c generalizing newTable with
  | null => exact ⟨newTable, rfl, h, rfl, .refl _⟩
  | freed => exact absurd hc id
  | item e next ih =>
      have hlen := List.length_modify (HtChain.item e) newTable (htIndex e.hash newMask)
      obtain ⟨newTable', hrelink, hbucketed, hlen', hperm⟩ := ih hc (h.push e) (by
        rw [List.length_modify]
        exact hfit)
      refine ⟨newTable', hrelink, hbucketed, ?_, ?_⟩
      · rw [hlen', List.length_modify]
      · have hput : ((newTable.modify (htIndex e.hash newMask) (.item e)).flatMap
            HtChain.items).Perm (e :: newTable.flatMap HtChain.items) :=
          flatMap_modify_cons (hfit e.hash) fun _ => rfl
        exact hperm.trans ((hput.append_left next.items).trans List.perm_middle)

theorem htRelinkAll_spec {newMask : UInt64} {chains : List (HtChain κ ν)}
    (hchains : ∀ c ∈ chains, c.Live) {newTable : List (HtChain κ ν)}
    (h : Bucketed newMask newTable) (hfit : ∀ hash, htIndex hash newMask < newTable.length) :
    ∃ newTable', chains.foldlM (fun newTable e => htRelink newMask e newTable) newTable =
        some newTable' ∧
      Bucketed newMask newTable' ∧ newTable'.length = newTable.length ∧
      (newTable'.flatMap HtChain.items).Perm
        (chains.flatMap HtChain.items ++ newTable.flatMap HtChain.items) := by
  induction chains generalizing newTable with
  | nil => exact ⟨newTable, rfl, h, rfl, .refl _⟩
  | cons c chains ih =>
      rw [List.forall_mem_cons] at hchains
      obtain ⟨hc, hchains⟩ := hchains
      obtain ⟨middle, hrelink, hbucketed, hlen, hperm⟩ := htRelink_spec hc h hfit
      obtain ⟨newTable', hall, hbucketed', hlen', hperm'⟩ := ih hchains hbucketed (by
        rw [hlen]
        exact hfit)
      refine ⟨newTable', ?_, hbucketed', hlen'.trans hlen, ?_⟩
      · rw [List.foldlM_cons, hrelink]
        exact hall
      · rw [List.flatMap_cons, List.append_assoc]
        exact hperm'.trans ((hperm.append_left _).trans (List.perm_append_comm_assoc _ _ _))

/-- Nothing is rehashed after an entry has been freed. -/
theorem live_of_htRelink {newMask : UInt64} {c : HtChain κ ν}
    {newTable newTable' : List (HtChain κ ν)}
    (h : htRelink newMask c newTable = some newTable') : c.Live := by
  induction c generalizing newTable with
  | null => exact trivial
  | freed => cases h
  | item e next ih => exact ih h

theorem live_of_htRelinkAll {newMask : UInt64} {chains newTable newTable' : List (HtChain κ ν)}
    (h : chains.foldlM (fun newTable e => htRelink newMask e newTable) newTable = some newTable') :
    ∀ c ∈ chains, c.Live := by
  induction chains generalizing newTable with
  | nil => simp
  | cons c chains ih =>
      rw [List.foldlM_cons] at h
      obtain ⟨middle, hrelink, hrest⟩ := Option.bind_eq_some_iff.mp h
      rw [List.forall_mem_cons]
      exact ⟨live_of_htRelink hrelink, ih hrest⟩

theorem live_of_htRehash {t t' : HtTable κ ν} {newFactor : ℕ} (h : htRehash t newFactor = some t')
    (hlen : t.table.length = t.htCapacity) : ∀ c ∈ t.table, c.Live := by
  obtain ⟨table, htable, -⟩ := Option.map_eq_some_iff.mp h
  rw [← hlen, List.take_length] at htable
  exact live_of_htRelinkAll htable

namespace HtTable

variable {t : HtTable κ ν} {newFactor : ℕ}

/-- What `ht_rehash` leaves as it is. -/
structure Rehashed (t t' : HtTable κ ν) : Prop where
  sound : t'.Sound
  entries : t'.entries.Perm t.entries
  count : t'.count = t.count
  keyEq : t'.keyEq = t.keyEq
  keyHash : t'.keyHash = t.keyHash
  keyFree : t'.keyFree = t.keyFree
  valFree : t'.valFree = t.valFree

theorem Sound.rehash (h : t.Sound) (hmin : htMinTwoFactor ≤ newFactor)
    (hmax : newFactor ≤ htMaxTwoFactor) :
    ∃ t', htRehash t newFactor = some t' ∧ t.Rehashed t' ∧ t'.hashTwoFactor = newFactor := by
  have hfit : ∀ hash, htIndex hash (Collection.mask newFactor) <
      (List.replicate (pow2 newFactor) (.null : HtChain κ ν)).length := by
    rw [List.length_replicate]
    exact htIndex_lt hmax
  obtain ⟨table, htable, hbucketed, hlen, hperm⟩ :=
    htRelinkAll_spec h.bucketed.live (bucketed_replicate (Collection.mask newFactor) _) hfit
  have hnone : (List.replicate (pow2 newFactor) (.null : HtChain κ ν)).flatMap HtChain.items =
      [] := by
    simp [HtChain.items]
  rw [hnone, List.append_nil] at hperm
  rw [List.length_replicate] at hlen
  refine ⟨{ t with table, hashTwoFactor := newFactor, mask := Collection.mask newFactor }, ?_,
    ⟨⟨hmin, hmax, rfl, hlen, hbucketed⟩, hperm, rfl, rfl, rfl, rfl, rfl⟩, rfl⟩
  rw [htRehash, ← h.length, List.take_length, htable]
  rfl

theorem Rehashed.refl (h : t.Sound) : t.Rehashed t := ⟨h, .refl _, rfl, rfl, rfl, rfl, rfl⟩

/-- The table that `ht_insert` looks the key up in. -/
theorem Sound.enlarge (h : t.Sound) :
    ∃ t', (if t.htIsOverloaded then htEnlarge t else some t) = some t' ∧ t.Rehashed t' := by
  split
  next hover =>
    rw [htIsOverloaded, Bool.and_eq_true, decide_eq_true_eq] at hover
    obtain ⟨t', henlarge, hr, -⟩ := h.rehash (h.min_le.trans (Nat.le_succ _)) hover.1
    exact ⟨t', henlarge, hr⟩
  next => exact ⟨t, rfl, .refl h⟩

/-- The table that `ht_remove` leaves. -/
theorem Sound.reduce (h : t.Sound) :
    ∃ t', (if t.htIsUnderloaded then htReduce t else some t) = some t' ∧ t.Rehashed t' := by
  split
  next hunder =>
    rw [htIsUnderloaded, Bool.and_eq_true, decide_eq_true_eq] at hunder
    obtain ⟨t', hreduce, hr, -⟩ :=
      h.rehash (Nat.le_pred_of_lt hunder.1) ((Nat.pred_le _).trans h.le_max)
    exact ⟨t', hreduce, hr⟩
  next => exact ⟨t, rfl, .refl h⟩

end HtTable

end WebcomSdk.Collection

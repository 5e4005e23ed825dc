import WebcomSdk.Collection.HtMap

/-!
`ht_remove` of `lib/collection/ht.c`. Its loop keeps the address of the link that
points to the current entry. From the second entry of a chain on it takes the
address of its own variable instead, so that `*prev = e->next` moves the variable on
to the next entry and unlinks nothing.
-/

namespace WebcomSdk.Collection

open WebcomSdk.Lib

/-- A call of `key_free` or `val_free`. -/
inductive HtFree (κ ν : Type) where
  | key (key : κ)
  | val (val : Option ν)
  deriving Repr, DecidableEq

variable {κ ν : Type}

/-- `key_free(e->key)`, `val_free(e->value)` and `free(e)`: the pointer after that, and
the calls made. `none` says that NULL or a freed entry is read or freed. -/
def htFreeItem (t : HtTable κ ν) : HtChain κ ν → Option (HtChain κ ν × List (HtFree κ ν))
  | .null => if t.keyFree || t.valFree then none else some (.null, [])
  | .freed => none
  | .item e _ =>
      some (.freed, (if t.keyFree then [.key e.key] else []) ++
        (if t.valFree then [.val e.value] else []))

/-- The loop from the second entry of a chain on: the chain after it, and what is
freed when the key is found. -/
def htRemoveLater (t : HtTable κ ν) (key : κ) :
    HtChain κ ν → Option (HtChain κ ν × Option (List (HtFree κ ν)))
  | .null => some (.null, none)
  | .freed => none
  | .item e next =>
      if t.keyEq key e.key then (htFreeItem t next).map fun r => (.item e r.1, some r.2)
      else (htRemoveLater t key next).map fun r => (.item e r.1, r.2)

/-- The loop, with `prev` the link in the table at first. -/
def htRemoveFrom (t : HtTable κ ν) (key : κ) :
    HtChain κ ν → Option (HtChain κ ν × Option (List (HtFree κ ν)))
  | .null => some (.null, none)
  | .freed => none
  | .item e next =>
      if t.keyEq key e.key then (htFreeItem t (.item e next)).map fun r => (next, some r.2)
      else (htRemoveLater t key next).map fun r => (.item e r.1, r.2)

/-- The table after the loop. -/
def HtTable.unlinked (t : HtTable κ ν) (key : κ)
    (r : HtChain κ ν × Option (List (HtFree κ ν))) : HtTable κ ν :=
  { t with
    table := t.table.modify (t.htBucketAddr key) fun _ => r.1
    count := if r.2.isSome then (t.count + unsignedRange - 1) % unsignedRange else t.count }

def htRemove (t : HtTable κ ν) (key : κ) :
    Option (Bool × HtTable κ ν × List (HtFree κ ν)) :=
  (htRemoveFrom t key (t.table.getD (t.htBucketAddr key) .null)).bind fun r =>
    let t := t.unlinked key r
    (if t.htIsUnderloaded then htReduce t else some t).map fun t => (r.2.isSome, t, r.2.getD [])

/-! ### What it is for -/

/-- The key and the value of an entry, as far as there are functions to free them. -/
def HtTable.frees (t : HtTable κ ν) (e : HtItem κ ν) : List (HtFree κ ν) :=
  (if t.keyFree then [.key e.key] else []) ++ if t.valFree then [.val e.value] else []

/-- The key is not in the table, or its entry is gone, the others are there as they
were, its key and value are freed and the count is one less. -/
structure HtRemoved (t : HtTable κ ν) (key : κ) (found : Bool) (t' : HtTable κ ν)
    (freed : List (HtFree κ ν)) : Prop where
  keyed : t'.Keyed
  functions : t'.keyEq = t.keyEq ∧ t'.keyHash = t.keyHash
  entries : t'.entries.Perm (t.entries.filter fun e => !t.keyEq key e.key)
  present : ∀ e ∈ t.entries, t.keyEq key e.key →
    found ∧ freed = t.frees e ∧ t'.count + 1 = t.count
  absent : (∀ e ∈ t.entries, ¬ t.keyEq key e.key) →
    ¬ found ∧ freed = [] ∧ t'.count = t.count

def HtTable.RemovesRight (t : HtTable κ ν) (key : κ) : Prop :=
  ∃ found t' freed, htRemove t key = some (found, t', freed) ∧ HtRemoved t key found t' freed

/-- The entry of the key, if there is one, is the first of its bucket. -/
def HtTable.FirstOrAbsent (t : HtTable κ ν) (key : κ) : Prop :=
  ∀ e ∈ t.entries, t.keyEq key e.key →
    ∃ next, t.table[t.htBucketAddr key]? = some (.item e next)

/-! ### The loop -/

section Loop

variable {t : HtTable κ ν} {key : κ} {c : HtChain κ ν}

theorem htRemoveLater_absent (hc : c.Live) (h : ∀ e ∈ c.items, ¬ t.keyEq key e.key) :
    htRemoveLater t key c = some (c, none) := by
  induction c with
  | null => rfl
  | freed => exact absurd hc id
  | item e next ih =>
      rw [HtChain.items, List.forall_mem_cons] at h
      rw [htRemoveLater, if_neg h.1, ih hc h.2]
      rfl

theorem htRemoveFrom_absent (hc : c.Live) (h : ∀ e ∈ c.items, ¬ t.keyEq key e.key) :
    htRemoveFrom t key c = some (c, none) := by
  cases c with
  | null => rfl
  | freed => exact absurd hc id
  | item e next =>
      have hnext : next.Live := hc
      rw [HtChain.items, List.forall_mem_cons] at h
      rw [htRemoveFrom, if_neg h.1, htRemoveLater_absent hnext h.2]
      rfl

theorem htRemoveFrom_first {e : HtItem κ ν} {next : HtChain κ ν} (h : t.keyEq key e.key) :
    htRemoveFrom t key (.item e next) = some (next, some (t.frees e)) := by
  rw [htRemoveFrom, if_pos h]
  rfl

/-- What a freed pointer points to is not read any more. -/
theorem items_htFreeItem {r : HtChain κ ν × List (HtFree κ ν)} (h : htFreeItem t c = some r) :
    r.1.items = [] := by
  cases c with
  | null =>
      rw [htFreeItem] at h
      split at h
      · cases h
      · obtain rfl := Option.some.inj h
        rfl
  | freed => cases h
  | item e next =>
      obtain rfl := Option.some.inj h
      rfl

/-- Beyond the first entry, the one that is found stays linked. -/
theorem htRemoveLater_linked {e : HtItem κ ν} (he : e ∈ c.items) (hk : t.keyEq key e.key)
    {r : HtChain κ ν × Option (List (HtFree κ ν))} (hr : htRemoveLater t key c = some r) :
    (∃ e ∈ r.1.items, t.keyEq key e.key) ∧ r.1.items ⊆ c.items := by
  induction c generalizing r with
  | null => cases he
  | freed => cases he
  | item e' next ih =>
      rw [htRemoveLater] at hr
      split at hr
      next hk' =>
        obtain ⟨r', hfree, rfl⟩ := Option.map_eq_some_iff.mp hr
        refine ⟨⟨e', List.mem_cons_self, hk'⟩, ?_⟩
        rw [HtChain.items, items_htFreeItem hfree]
        exact List.cons_subset_cons e' (List.nil_subset _)
      next hk' =>
        obtain ⟨r', hlater, rfl⟩ := Option.map_eq_some_iff.mp hr
        have he' : e ∈ next.items := by
          rcases List.mem_cons.mp he with rfl | he
          · exact absurd hk hk'
          · exact he
        obtain ⟨⟨e₁, he₁, hk₁⟩, hsub⟩ := ih he' hlater
        exact ⟨⟨e₁, List.mem_cons_of_mem e' he₁, hk₁⟩, List.cons_subset_cons e' hsub⟩

end Loop

/-! ### The call -/

/-- `count -= 1` on an `unsigned` that is not 0. -/
theorem pred_count {n : ℕ} (h : n < unsignedRange) :
    (n + 1 + unsignedRange - 1) % unsignedRange = n := by
  have hadd : n + 1 + unsignedRange - 1 = n + unsignedRange := by omega
  rw [hadd, Nat.add_mod_right, Nat.mod_eq_of_lt h]

namespace HtTable

variable {t : HtTable κ ν} {key : κ} {c : HtChain κ ν}
  {r : HtChain κ ν × Option (List (HtFree κ ν))}

theorem Sound.unlinked (h : t.Sound) (hc : t.table[t.htBucketAddr key]? = some c)
    (hlive : ∀ c ∈ (t.unlinked key r).table, c.Live) (hsub : r.1.items ⊆ c.items) :
    (t.unlinked key r).Sound where
  min_le := h.min_le
  le_max := h.le_max
  mask_eq := h.mask_eq
  length := (List.length_modify _ _ _).trans h.length
  bucketed.live := hlive
  bucketed.placed := by
    refine h.bucketed.placed.modify fun c' hc' e he => ?_
    obtain rfl := Option.some.inj (hc.symm.trans hc')
    exact h.bucketed.placed _ c hc e (hsub he)

theorem live_unlinked (h : t.Sound) (hlive : r.1.Live) :
    ∀ c ∈ (t.unlinked key r).table, c.Live := by
  intro c hc
  obtain ⟨i, hi⟩ := List.mem_iff_getElem?.mp hc
  rw [unlinked, List.getElem?_modify] at hi
  obtain ⟨c', hc', rfl⟩ := Option.map_eq_some_iff.mp hi
  split
  · exact hlive
  · exact h.bucketed.live c' (List.mem_of_getElem? hc')

/-- The entries, without and with the change of the bucket. -/
theorem entries_unlinked (h : t.Sound) (hc : t.table[t.htBucketAddr key]? = some c) :
    ∃ rest, t.entries.Perm (c.items ++ rest) ∧
      (t.unlinked key r).entries.Perm (r.1.items ++ rest) := by
  obtain ⟨c', rest, hc', hbefore, hafter⟩ :=
    @flatMap_modify _ _ HtChain.items t.table _ (h.index_lt (t.keyHash key)) fun _ => r.1
  obtain rfl := Option.some.inj (hc.symm.trans hc')
  exact ⟨rest, hbefore, hafter⟩

/-- Some entries have gone, and the count says so. -/
theorem Keyed.of_perm (h : t.Keyed) {gone : List (HtItem κ ν)}
    (hsound : (t.unlinked key r).Sound)
    (hperm : t.entries.Perm (gone ++ (t.unlinked key r).entries))
    (hcount : (t.unlinked key r).count = (t.unlinked key r).entries.length) :
    (t.unlinked key r).Keyed where
  sound := hsound
  agree := h.agree
  hash := fun e he => h.hash e (hperm.mem_iff.mpr (List.mem_append_right gone he))
  distinct := by
    have hall := (hperm.pairwise_iff fun {a b} hab hba => hab (h.agree.symm _ _ hba)).mp h.distinct
    exact (List.pairwise_append.mp hall).2.1
  count := hcount
  count_lt := by
    have hlen := hperm.length_eq
    rw [List.length_append] at hlen
    exact lt_of_le_of_lt (by omega) h.count_lt

theorem count_unlinked (t : HtTable κ ν) (key : κ) (c : HtChain κ ν)
    (freed : List (HtFree κ ν)) :
    (t.unlinked key (c, some freed)).count = (t.count + unsignedRange - 1) % unsignedRange := by
  simp only [unlinked, Option.isSome_some, if_true]

theorem functions_rehashed {t' : HtTable κ ν} (hr : (t.unlinked key r).Rehashed t') :
    t'.keyEq = t.keyEq ∧ t'.keyHash = t.keyHash := by
  constructor
  · rw [hr.keyEq]
    rfl
  · rw [hr.keyHash]
    rfl

/-- After the loop, the table may be reduced. -/
theorem htRemove_eq (h : htRemoveFrom t key (t.table.getD (t.htBucketAddr key) .null) = some r)
    (hsound : (t.unlinked key r).Sound) :
    ∃ t', htRemove t key = some (r.2.isSome, t', r.2.getD []) ∧ (t.unlinked key r).Rehashed t' := by
  obtain ⟨t', hreduce, hr⟩ := hsound.reduce
  refine ⟨t', ?_, hr⟩
  rw [htRemove, h, Option.bind_some]
  simp only [hreduce, Option.map_some]

theorem removes_absent (h : t.Keyed) (habsent : ∀ e ∈ t.entries, ¬ t.keyEq key e.key) :
    t.RemovesRight key := by
  obtain ⟨c, hc, hget, hlive, hsub, -⟩ := h.bucket key
  have hloop : htRemoveFrom t key (t.table.getD (t.htBucketAddr key) .null) = some (c, none) := by
    rw [hget]
    exact htRemoveFrom_absent hlive fun e he => habsent e (hsub he)
  have hsound : (t.unlinked key (c, none)).Sound :=
    h.sound.unlinked hc (live_unlinked h.sound hlive) (List.Subset.refl _)
  obtain ⟨rest, hbefore, hafter⟩ := entries_unlinked (r := (c, none)) h.sound hc
  have hperm : t.entries.Perm ([] ++ (t.unlinked key (c, none)).entries) :=
    hbefore.trans hafter.symm
  obtain ⟨t', hremove, hr⟩ := htRemove_eq hloop hsound
  have hkeyed : (t.unlinked key (c, none)).Keyed :=
    h.of_perm hsound hperm (h.count.trans hperm.length_eq)
  have hall : t.entries.filter (fun e => !t.keyEq key e.key) = t.entries :=
    List.filter_eq_self.mpr fun e he => by simp [habsent e he]
  refine ⟨_, t', _, hremove, hkeyed.rehashed hr, functions_rehashed hr, ?_, ?_, ?_⟩
  · rw [hall]
    exact hr.entries.trans hperm.symm
  · exact fun e he hk => absurd hk (habsent e he)
  · exact fun _ => ⟨by simp, rfl, hr.count⟩

/-- The other entries do not have the key. -/
theorem Keyed.filter_key (h : t.Keyed) {e : HtItem κ ν} {others : List (HtItem κ ν)}
    (hperm : t.entries.Perm ([e] ++ others)) (hk : t.keyEq key e.key) :
    (t.entries.filter fun e => !t.keyEq key e.key).Perm others := by
  have hothers : ∀ e' ∈ others, ¬ t.keyEq key e'.key := by
    have hall := (hperm.pairwise_iff fun {a b} hab hba => hab (h.agree.symm _ _ hba)).mp h.distinct
    intro e' he' hk'
    have hno := (List.pairwise_append.mp hall).2.2 e (List.mem_singleton_self e) e' he'
    exact hno (h.agree.trans _ _ _ (h.agree.symm _ _ hk) hk')
  have hkeep : (others.filter fun e => !t.keyEq key e.key) = others := by
    refine List.filter_eq_self.mpr fun e' he' => ?_
    rw [Bool.not_eq_true']
    exact Bool.eq_false_of_not_eq_true (hothers e' he')
  refine (hperm.filter _).trans ?_
  rw [List.filter_append, hkeep, List.filter_cons_of_neg (by simp [hk]), List.filter_nil,
    List.nil_append]

theorem removes_first (h : t.Keyed) {e : HtItem κ ν} {next : HtChain κ ν}
    (hc : t.table[t.htBucketAddr key]? = some (.item e next)) (hk : t.keyEq key e.key) :
    t.RemovesRight key := by
  obtain ⟨c, hc', hget, hlive, hsub, -⟩ := h.bucket key
  obtain rfl := Option.some.inj (hc'.symm.trans hc)
  have hloop : htRemoveFrom t key (t.table.getD (t.htBucketAddr key) .null) =
      some (next, some (t.frees e)) := by
    rw [hget]
    exact htRemoveFrom_first hk
  have hsound : (t.unlinked key (next, some (t.frees e))).Sound :=
    h.sound.unlinked hc (live_unlinked h.sound hlive) (List.subset_cons_self e next.items)
  obtain ⟨rest, hbefore, hafter⟩ := entries_unlinked (r := (next, some (t.frees e))) h.sound hc
  have hperm : t.entries.Perm ([e] ++ (t.unlinked key (next, some (t.frees e))).entries) :=
    hbefore.trans (hafter.symm.cons e)
  have hlen : t.count = (t.unlinked key (next, some (t.frees e))).entries.length + 1 := by
    rw [h.count, hperm.length_eq, List.length_append, List.length_singleton, Nat.add_comm]
  have hcount : (t.unlinked key (next, some (t.frees e))).count =
      (t.unlinked key (next, some (t.frees e))).entries.length := by
    have hlt := h.count_lt
    rw [← h.count, hlen] at hlt
    rw [count_unlinked, hlen]
    exact pred_count (Nat.lt_of_succ_lt hlt)
  obtain ⟨t', hremove, hr⟩ := htRemove_eq hloop hsound
  have hkeyed : (t.unlinked key (next, some (t.frees e))).Keyed := h.of_perm hsound hperm hcount
  have he : e ∈ t.entries := hsub List.mem_cons_self
  refine ⟨_, t', _, hremove, hkeyed.rehashed hr, functions_rehashed hr, ?_, ?_, ?_⟩
  · exact hr.entries.trans (h.filter_key hperm hk).symm
  · intro e' he' hk'
    obtain rfl := h.unique he he' hk hk'
    exact ⟨rfl, rfl, by rw [hr.count, hcount, hlen]⟩
  · exact fun habsent => absurd hk (habsent e he)

/-- Beyond the first entry of its bucket, the entry of the key is still there. -/
theorem not_removes_later (h : t.Keyed) {e e' : HtItem κ ν} {next : HtChain κ ν}
    (hc : t.table[t.htBucketAddr key]? = some (.item e' next)) (hne : ¬ t.keyEq key e'.key)
    (he : e ∈ t.entries) (hk : t.keyEq key e.key) : ¬ t.RemovesRight key := by
  rintro ⟨found, t', freed, hremove, hright⟩
  obtain ⟨c, hc', hget, -, -, hmem⟩ := h.bucket key
  obtain rfl := Option.some.inj (hc'.symm.trans hc)
  have hlater : e ∈ next.items := by
    rcases List.mem_cons.mp (hmem e he hk) with rfl | hlater
    · exact absurd hk hne
    · exact hlater
  rw [htRemove, hget] at hremove
  obtain ⟨r, hloop, hrest⟩ := Option.bind_eq_some_iff.mp hremove
  obtain ⟨t₁, hreduce, hout⟩ := Option.map_eq_some_iff.mp hrest
  obtain ⟨-, rfl, -⟩ : _ ∧ t₁ = t' ∧ _ := by simpa using hout
  rw [htRemoveFrom, if_neg hne] at hloop
  obtain ⟨r', hloop', rfl⟩ := Option.map_eq_some_iff.mp hloop
  obtain ⟨⟨e₁, he₁, hk₁⟩, hsub⟩ := htRemoveLater_linked hlater hk hloop'
  obtain ⟨rest, -, hafter⟩ := entries_unlinked (r := (HtChain.item e' r'.1, r'.2)) h.sound hc
  have hstill : e₁ ∈ (t.unlinked key (.item e' r'.1, r'.2)).entries :=
    hafter.mem_iff.mpr (List.mem_append_left rest (List.mem_cons_of_mem e' he₁))
  have hend : e₁ ∈ t₁.entries := by
    split at hreduce
    next hunder =>
      -- a freed entry would have stopped the rehashing
      have hlen : (t.unlinked key (.item e' r'.1, r'.2)).table.length =
          (t.unlinked key (.item e' r'.1, r'.2)).htCapacity :=
        (List.length_modify _ _ _).trans h.sound.length
      have hsound := h.sound.unlinked hc (live_of_htRehash hreduce hlen)
        (List.cons_subset_cons e' hsub)
      obtain ⟨t₂, hreduce', hr⟩ := hsound.reduce
      rw [if_pos hunder, hreduce] at hreduce'
      obtain rfl := Option.some.inj hreduce'
      exact hr.entries.mem_iff.mpr hstill
    next =>
      obtain rfl := Option.some.inj hreduce
      exact hstill
  have hfilter := hright.entries.mem_iff.mp hend
  rw [List.mem_filter, hk₁] at hfilter
  exact absurd hfilter.2 (by decide)

end HtTable

/-- **Removing.** On a table of distinct keys, `ht_remove` takes out the entry of the
key, and nothing else, exactly when the key is absent or its entry is the first of its
bucket. -/
theorem htRemove_iff {t : HtTable κ ν} (h : t.Keyed) (key : κ) :
    t.RemovesRight key ↔ t.FirstOrAbsent key := by
  constructor
  · intro hright e he hk
    obtain ⟨c, hc, -, -, hsub, hmem⟩ := h.bucket key
    cases c with
    | null => cases hmem e he hk
    | freed => cases hmem e he hk
    | item e' next =>
        by_cases hk' : t.keyEq key e'.key
        · obtain rfl := h.unique he (hsub List.mem_cons_self) hk hk'
          exact ⟨next, hc⟩
        · exact absurd hright (HtTable.not_removes_later h hc hk' he hk)
  · intro hfirst
    by_cases hpresent : ∃ e ∈ t.entries, t.keyEq key e.key
    · obtain ⟨e, he, hk⟩ := hpresent
      obtain ⟨next, hc⟩ := hfirst e he hk
      exact HtTable.removes_first h hc hk
    · refine HtTable.removes_absent h fun e he hk => hpresent ⟨e, he, hk⟩

/-- Three entries of one bucket, the last inserted first. -/
def threeInBucket : HtTable UInt64 ℕ :=
  (((htNew (fun key => key) (fun a b => a == b) true true).link ⟨1, 1, some 10⟩).link
    ⟨9, 9, some 90⟩).link ⟨17, 17, some 170⟩

theorem keyed_threeInBucket : threeInBucket.Keyed := by
  have hnew : (htNew (fun key => key) (fun a b => a == b) true true : HtTable UInt64 ℕ).Keyed :=
    (represents_htNew (htAgree_beq fun key => key) true true).keyed
  have hone : ((htNew (fun key => key) (fun a b => a == b) true true : HtTable UInt64 ℕ).link
      ⟨1, 1, some 10⟩).Keyed := hnew.link (by decide +kernel) (by decide +kernel) (some 10)
  have htwo : (((htNew (fun key => key) (fun a b => a == b) true true : HtTable UInt64 ℕ).link
      ⟨1, 1, some 10⟩).link ⟨9, 9, some 90⟩).Keyed :=
    hone.link (by decide +kernel) (by decide +kernel) (some 90)
  exact htwo.link (by decide +kernel) (by decide +kernel) (some 170)

/-- The first entry. -/
theorem removesRight_first : threeInBucket.RemovesRight 17 := by
  refine (htRemove_iff keyed_threeInBucket 17).mpr fun e he hk => ?_
  have hentry : ∀ e ∈ threeInBucket.entries, (17 : UInt64) == e.key → e = ⟨17, 17, some 170⟩ := by
    decide +kernel
  rw [hentry e he hk]
  exact ⟨.item ⟨9, 9, some 90⟩ (.item ⟨1, 1, some 10⟩ .null), by decide +kernel⟩

/-- With the one in the middle, the key and the value of the last are freed. -/
theorem not_removesRight_middle :
    ¬ ∀ (t : HtTable UInt64 ℕ) (key : UInt64), t.Keyed → t.RemovesRight key := by
  intro h
  obtain ⟨found, t', freed, hremove, hright⟩ := h threeInBucket 9 keyed_threeInBucket
  have hfreed : (htRemove threeInBucket 9).map (fun r => r.2.2) =
      some [.key 1, .val (some 10)] := by
    decide +kernel
  rw [hremove] at hfreed
  have hmem : (⟨9, 9, some 90⟩ : HtItem UInt64 ℕ) ∈ threeInBucket.entries := by decide +kernel
  have hkey : threeInBucket.keyEq 9 9 := by decide +kernel
  have hclaim : freed = threeInBucket.frees ⟨9, 9, some 90⟩ := (hright.present _ hmem hkey).2.1
  have hwrong : (some [.key 1, .val (some 10)] : Option (List (HtFree UInt64 ℕ))) ≠
      some (threeInBucket.frees ⟨9, 9, some 90⟩) := by
    decide +kernel
  rw [hclaim] at hfreed
  exact hwrong hfreed.symm

end WebcomSdk.Collection

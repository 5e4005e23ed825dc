import WebcomSdk.Collection.Ht

/-!
The calls of `lib/collection/ht.c` that look keys up and insert them, and the
finite map that the table is meant to be. `ht_insert` and `ht_contains` look the key
up without a place for the value, and `ht_get_ex` writes NULL there when the key is
absent.
-/

namespace WebcomSdk.Collection

open WebcomSdk.Lib

variable {κ ν : Type}

/-! ### The calls -/

/-- The loop of `ht_get_ex`. The outer `none` says that a freed entry is read. -/
def htFind (eq : κ → κ → Bool) (key : κ) : HtChain κ ν → Option (Option (HtItem κ ν))
  | .null => some none
  | .freed => none
  | .item e next => if eq key e.key then some (some e) else htFind eq key next

/-- Whether the key is there, and what is written to `*ret`. `ret` says that the
pointer is not NULL; the result `none` that a freed entry is read, or NULL written to. -/
def htGetEx (t : HtTable κ ν) (key : κ) (ret : Bool) : Option (Bool × Option (Option ν)) :=
  match htFind t.keyEq key (t.table.getD (t.htBucketAddr key) .null) with
  | none => none
  | some (some e) => some (true, if ret then some e.value else none)
  | some none => if ret then some (false, some none) else none

def htContains (t : HtTable κ ν) (key : κ) : Option Bool := (htGetEx t key false).map Prod.fst

def htGet (t : HtTable κ ν) (key : κ) : Option (Option ν) := (htGetEx t key true).bind Prod.snd

def htInsert (t : HtTable κ ν) (key : κ) (val : Option ν) : Option (Bool × HtTable κ ν) :=
  (if t.htIsOverloaded then htEnlarge t else some t).bind fun t =>
    (htContains t key).map fun found =>
      if found then (false, t) else (true, t.link ⟨t.keyHash key, key, val⟩)

def htCount (t : HtTable κ ν) : ℕ := t.count

inductive HtCall (κ ν : Type) where
  | insert (key : κ) (val : Option ν)
  | contains (key : κ)
  | get (key : κ)
  | getEx (key : κ) (ret : Bool)
  | count
  deriving Repr, DecidableEq

inductive HtResult (ν : Type) where
  | inserted (new : Bool)
  | contained (found : Bool)
  | value (val : Option ν)
  | got (found : Bool) (ret : Option (Option ν))
  | number (n : ℕ)
  deriving Repr, DecidableEq

def HtTable.call (t : HtTable κ ν) : HtCall κ ν → Option (HtResult ν × HtTable κ ν)
  | .insert key val => (htInsert t key val).map fun r => (.inserted r.1, r.2)
  | .contains key => (htContains t key).map fun found => (.contained found, t)
  | .get key => (htGet t key).map fun val => (.value val, t)
  | .getEx key ret => (htGetEx t key ret).map fun r => (.got r.1 r.2, t)
  | .count => some (.number (htCount t), t)

/-- What the calls return, one after the other. -/
def HtTable.run (t : HtTable κ ν) : List (HtCall κ ν) → Option (List (HtResult ν))
  | [] => some []
  | c :: calls => (t.call c).bind fun r => (r.2.run calls).map (r.1 :: ·)

/-! ### The finite map -/

/-- The value of a key among the entries of a map. -/
def mapFind (eq : κ → κ → Bool) (m : List (κ × Option ν)) (key : κ) : Option (Option ν) :=
  (m.find? fun e => eq key e.1).map Prod.snd

/-- A call on a map in which the first insertion of a key wins. -/
def mapCall (eq : κ → κ → Bool) (m : List (κ × Option ν)) :
    HtCall κ ν → HtResult ν × List (κ × Option ν)
  | .insert key val =>
      if (mapFind eq m key).isSome then (.inserted false, m) else (.inserted true, (key, val) :: m)
  | .contains key => (.contained (mapFind eq m key).isSome, m)
  | .get key => (.value (mapFind eq m key).join, m)
  | .getEx key ret =>
      (.got (mapFind eq m key).isSome (if ret then some (mapFind eq m key).join else none), m)
  | .count => (.number m.length, m)

def mapRun (eq : κ → κ → Bool) : List (κ × Option ν) → List (HtCall κ ν) → List (HtResult ν)
  | _, [] => []
  | m, c :: calls => (mapCall eq m c).1 :: mapRun eq (mapCall eq m c).2 calls

/-- There is a place for the value, or the key is in the map. -/
def HtCall.Safe (eq : κ → κ → Bool) (m : List (κ × Option ν)) : HtCall κ ν → Prop
  | .insert key _ => (mapFind eq m key).isSome
  | .contains key => (mapFind eq m key).isSome
  | .getEx key ret => ret ∨ (mapFind eq m key).isSome
  | .get _ => True
  | .count => True

/-- The call hands a place for the value to `ht_get_ex`, or does not look up. -/
def HtCall.HasPointer : HtCall κ ν → Prop
  | .insert _ _ => False
  | .contains _ => False
  | .getEx _ ret => ret
  | .get _ => True
  | .count => True

/-- The equality function is an equality, and equal keys have one hash. -/
structure HtAgree (eq : κ → κ → Bool) (hash : κ → UInt64) : Prop where
  refl : ∀ a, eq a a
  symm : ∀ a b, eq a b → eq b a
  trans : ∀ a b c, eq a b → eq b c → eq a c
  hash_eq : ∀ a b, eq a b → hash a = hash b

/-- The entries of the table are those of a map. -/
structure HtTable.Keyed (t : HtTable κ ν) : Prop where
  sound : t.Sound
  agree : HtAgree t.keyEq t.keyHash
  hash : ∀ e ∈ t.entries, e.hash = t.keyHash e.key
  distinct : t.entries.Pairwise fun a b => ¬ t.keyEq a.key b.key
  count : t.count = t.entries.length
  count_lt : t.entries.length < unsignedRange

namespace HtTable

variable {t t' : HtTable κ ν}

theorem Keyed.rehashed (h : t.Keyed) (hr : t.Rehashed t') : t'.Keyed where
  sound := hr.sound
  agree := by
    rw [hr.keyEq, hr.keyHash]
    exact h.agree
  hash := by
    intro e he
    rw [hr.keyHash]
    exact h.hash e (hr.entries.mem_iff.mp he)
  distinct := by
    rw [hr.keyEq]
    refine (hr.entries.pairwise_iff fun {a b} hab hba => ?_).mpr h.distinct
    exact hab (h.agree.symm _ _ hba)
  count := by
    rw [hr.count, hr.entries.length_eq]
    exact h.count
  count_lt := by
    rw [hr.entries.length_eq]
    exact h.count_lt

/-- A key is in one entry at most. -/
theorem Keyed.unique (h : t.Keyed) {key : κ} {e e' : HtItem κ ν} (he : e ∈ t.entries)
    (he' : e' ∈ t.entries) (hk : t.keyEq key e.key) (hk' : t.keyEq key e'.key) : e = e' := by
  by_contra hne
  have hsymm : Std.Symm fun a b : HtItem κ ν => ¬ t.keyEq a.key b.key :=
    ⟨fun a b hab hba => hab (h.agree.symm _ _ hba)⟩
  have hno : ¬ t.keyEq e.key e'.key := h.distinct.forall he he' hne
  exact hno (h.agree.trans _ _ _ (h.agree.symm _ _ hk) hk')

/-- A new key is linked. -/
theorem Keyed.link (h : t.Keyed) {key : κ} (hnew : ∀ e ∈ t.entries, ¬ t.keyEq key e.key)
    (hcount : t.count + 1 < unsignedRange) (val : Option ν) :
    (t.link ⟨t.keyHash key, key, val⟩).Keyed := by
  have hperm := h.sound.entries_link ⟨t.keyHash key, key, val⟩
  have hlen : (t.link ⟨t.keyHash key, key, val⟩).entries.length = t.count + 1 := by
    rw [hperm.length_eq, List.length_cons, h.count]
  refine ⟨h.sound.link _, h.agree, fun e he => ?_, ?_, ?_, ?_⟩
  · rcases List.mem_cons.mp (hperm.mem_iff.mp he) with rfl | he
    · rfl
    · exact h.hash e he
  · refine (hperm.pairwise_iff fun {a b} hab hba => hab (h.agree.symm _ _ hba)).mpr ?_
    exact List.pairwise_cons.mpr ⟨hnew, h.distinct⟩
  · rw [hlen]
    exact Nat.mod_eq_of_lt hcount
  · rw [hlen]
    exact hcount

end HtTable

theorem htFind_live (eq : κ → κ → Bool) (key : κ) {c : HtChain κ ν} (hc : c.Live) :
    htFind eq key c = some (c.items.find? fun e => eq key e.key) := by
  induction c with
  | null => rfl
  | freed => exact absurd hc id
  | item e next ih =>
      rw [htFind, HtChain.items, List.find?_cons]
      cases eq key e.key with
      | true => rfl
      | false => exact ih hc

namespace HtTable

variable {t t' : HtTable κ ν}

theorem Keyed.bucket (h : t.Keyed) (key : κ) :
    ∃ c, t.table[t.htBucketAddr key]? = some c ∧ t.table.getD (t.htBucketAddr key) .null = c ∧
      c.Live ∧ c.items ⊆ t.entries ∧ ∀ e ∈ t.entries, t.keyEq key e.key → e ∈ c.items := by
  have hlt : t.htBucketAddr key < t.table.length := h.sound.index_lt (t.keyHash key)
  have hget := List.getElem?_eq_getElem hlt
  have hmem : t.table[t.htBucketAddr key] ∈ t.table := List.getElem_mem hlt
  refine ⟨_, hget, ?_, h.sound.bucketed.live _ hmem, ?_, fun e he hk => ?_⟩
  · rw [List.getD_eq_getElem?_getD, hget]
    rfl
  · exact fun e he => List.mem_flatMap.mpr ⟨_, hmem, he⟩
  · -- the entry is in the bucket of its hash, which is that of the key
    obtain ⟨c, hc, hec⟩ := h.sound.bucketed.placed.mem he
    have hplace : htIndex e.hash t.mask = t.htBucketAddr key := by
      rw [h.hash e he, ← h.agree.hash_eq _ _ hk]
      rfl
    rw [hplace, hget] at hc
    obtain rfl := Option.some.inj hc
    exact hec

/-- **Looking up.** The bucket of a key has its entry, if there is one. -/
theorem Keyed.find (h : t.Keyed) (key : κ) :
    ∃ r, htFind t.keyEq key (t.table.getD (t.htBucketAddr key) .null) = some r ∧
      ∀ e, r = some e ↔ e ∈ t.entries ∧ t.keyEq key e.key := by
  obtain ⟨c, -, hget, hlive, hsub, hmem⟩ := h.bucket key
  rw [hget, htFind_live t.keyEq key hlive]
  have hfound : ∀ e, c.items.find? (fun e => t.keyEq key e.key) = some e →
      e ∈ t.entries ∧ t.keyEq key e.key := by
    intro e he
    obtain ⟨hk, -⟩ := List.find?_eq_some_iff_append.mp he
    exact ⟨hsub (List.mem_of_find?_eq_some he), hk⟩
  refine ⟨_, rfl, fun e => ⟨hfound e, fun ⟨he, hk⟩ => ?_⟩⟩
  cases hfind : c.items.find? fun e => t.keyEq key e.key with
  | none => exact absurd hk (List.find?_eq_none.mp hfind e (hmem e he hk))
  | some e' =>
      obtain ⟨he', hk'⟩ := hfound e' hfind
      rw [h.unique he he' hk hk']

/-- `m` lists the keys of the table with their values. -/
structure Represents (t : HtTable κ ν) (m : List (κ × Option ν)) : Prop where
  keyed : t.Keyed
  entries : (t.entries.map fun e => (e.key, e.value)).Perm m

variable {m : List (κ × Option ν)} {key : κ} {val : Option ν}

theorem Represents.rehashed (h : t.Represents m) (hr : t.Rehashed t') : t'.Represents m :=
  ⟨h.keyed.rehashed hr, (hr.entries.map _).trans h.entries⟩

theorem Represents.find (h : t.Represents m) (key : κ) :
    ∃ r, htFind t.keyEq key (t.table.getD (t.htBucketAddr key) .null) = some r ∧
      mapFind t.keyEq m key = r.map HtItem.value := by
  obtain ⟨r, hfind, hr⟩ := h.keyed.find key
  refine ⟨r, hfind, ?_⟩
  have hmem : ∀ x, x ∈ m ↔ ∃ e ∈ t.entries, (e.key, e.value) = x := fun x => by
    rw [← h.entries.mem_iff, List.mem_map]
  rw [mapFind]
  cases hx : m.find? fun e => t.keyEq key e.1 with
  | none =>
      have hno : r = none := by
        rw [Option.eq_none_iff_forall_ne_some]
        intro e he
        obtain ⟨hin, hk⟩ := (hr e).mp he
        exact List.find?_eq_none.mp hx _ ((hmem _).mpr ⟨e, hin, rfl⟩) hk
      rw [hno]
      rfl
  | some x =>
      obtain ⟨hk, -⟩ := List.find?_eq_some_iff_append.mp hx
      obtain ⟨e, hin, rfl⟩ := (hmem x).mp (List.mem_of_find?_eq_some hx)
      rw [(hr e).mpr ⟨hin, hk⟩]
      rfl

/-- A look-up without a place for the value needs the key. -/
theorem Represents.getEx (h : t.Represents m) (key : κ) (ret : Bool) :
    htGetEx t key ret = if ret ∨ (mapFind t.keyEq m key).isSome then
      some ((mapFind t.keyEq m key).isSome, if ret then some (mapFind t.keyEq m key).join else none)
      else none := by
  obtain ⟨r, hfind, hmap⟩ := h.find key
  rw [htGetEx, hfind, hmap]
  cases r with
  | none => cases ret <;> rfl
  | some e => cases ret <;> rfl

theorem Represents.contains (h : t.Represents m) (key : κ) :
    htContains t key = if (mapFind t.keyEq m key).isSome then some true else none := by
  rw [htContains, h.getEx]
  cases (mapFind t.keyEq m key).isSome <;> rfl

theorem Represents.get (h : t.Represents m) (key : κ) :
    htGet t key = some (mapFind t.keyEq m key).join := by
  rw [htGet, h.getEx]
  rfl

theorem Represents.insert (h : t.Represents m) (key : κ) (val : Option ν) :
    ∃ t', t'.Represents m ∧ t'.keyEq = t.keyEq ∧ htInsert t key val =
      if (mapFind t.keyEq m key).isSome then some (false, t') else none := by
  obtain ⟨t', henlarge, hr⟩ := h.keyed.sound.enlarge
  refine ⟨t', h.rehashed hr, hr.keyEq, ?_⟩
  rw [htInsert, henlarge, Option.bind_some, (h.rehashed hr).contains, hr.keyEq]
  cases (mapFind t.keyEq m key).isSome <;> rfl

/-- **One call.** A safe call returns what the map does, and leaves the map as it
is; any other writes to NULL. -/
theorem Represents.call (h : t.Represents m) (c : HtCall κ ν) :
    ∃ t', t'.Represents m ∧ t'.keyEq = t.keyEq ∧
      (c.Safe t.keyEq m → t.call c = some ((mapCall t.keyEq m c).1, t') ∧
        (mapCall t.keyEq m c).2 = m) ∧
      (¬ c.Safe t.keyEq m → t.call c = none) := by
  cases c with
  | insert key val =>
      obtain ⟨t', h', heq, hinsert⟩ := h.insert key val
      refine ⟨t', h', heq, fun hsafe => ?_, fun hnot => ?_⟩
      · rw [HtCall.Safe] at hsafe
        rw [HtTable.call, hinsert, mapCall, if_pos hsafe, if_pos hsafe]
        exact ⟨rfl, rfl⟩
      · rw [HtCall.Safe] at hnot
        rw [HtTable.call, hinsert, if_neg hnot]
        rfl
  | contains key =>
      refine ⟨t, h, rfl, fun hsafe => ?_, fun hnot => ?_⟩
      · rw [HtCall.Safe] at hsafe
        rw [HtTable.call, h.contains, mapCall, if_pos hsafe, hsafe]
        exact ⟨rfl, rfl⟩
      · rw [HtCall.Safe] at hnot
        rw [HtTable.call, h.contains, if_neg hnot]
        rfl
  | get key =>
      refine ⟨t, h, rfl, fun _ => ?_, fun hnot => absurd trivial hnot⟩
      rw [HtTable.call, h.get]
      exact ⟨rfl, rfl⟩
  | getEx key ret =>
      refine ⟨t, h, rfl, fun hsafe => ?_, fun hnot => ?_⟩
      · rw [HtCall.Safe] at hsafe
        rw [HtTable.call, h.getEx, if_pos hsafe]
        exact ⟨rfl, rfl⟩
      · rw [HtCall.Safe] at hnot
        rw [HtTable.call, h.getEx, if_neg hnot]
        rfl
  | count =>
      refine ⟨t, h, rfl, fun _ => ⟨?_, rfl⟩, fun hnot => absurd trivial hnot⟩
      have hlen : t.count = m.length := by
        rw [h.keyed.count, ← h.entries.length_eq, List.length_map]
      rw [HtTable.call, htCount, hlen]
      rfl

/-- **The run.** -/
theorem Represents.run_iff (h : t.Represents m) (calls : List (HtCall κ ν)) :
    t.run calls = some (mapRun t.keyEq m calls) ↔ ∀ c ∈ calls, c.Safe t.keyEq m := by
  induction calls generalizing t with
  | nil => simp [HtTable.run, mapRun]
  | cons c calls ih =>
      obtain ⟨t', h', heq, hsafe, hnot⟩ := h.call c
      rw [HtTable.run, mapRun, List.forall_mem_cons]
      by_cases hc : c.Safe t.keyEq m
      · obtain ⟨hcall, hm⟩ := hsafe hc
        have hrest := ih h'
        rw [heq] at hrest
        rw [hcall, hm, Option.bind_some, ← hrest]
        cases t'.run calls with
        | none => simp
        | some results => simp [hc]
      · rw [hnot hc]
        simp [hc]

end HtTable

theorem represents_htNew {eq : κ → κ → Bool} {hash : κ → UInt64} (h : HtAgree eq hash)
    (kf vf : Bool) : (htNew hash eq kf vf : HtTable κ ν).Represents [] := by
  have hnone : (htNew hash eq kf vf : HtTable κ ν).entries = [] := by
    simp [HtTable.entries, htNew, HtChain.items]
  refine ⟨⟨sound_htNew hash eq kf vf, h, ?_, ?_, ?_, ?_⟩, ?_⟩
  · simp [hnone]
  · simp [hnone]
  · rw [hnone]
    rfl
  · rw [hnone]
    exact Nat.two_pow_pos 32
  · simp [hnone]

theorem safe_nil_iff (eq : κ → κ → Bool) (c : HtCall κ ν) : c.Safe eq [] ↔ c.HasPointer := by
  cases c <;> simp [HtCall.Safe, HtCall.HasPointer, mapFind]

/-- **The table as a map.** On a new table the calls return what they return on an
empty map exactly when each of them that looks a key up has a place for the value;
on a table of any entries, exactly when each has such a place or finds its key. -/
theorem htRun_iff {eq : κ → κ → Bool} {hash : κ → UInt64} (h : HtAgree eq hash) :
    (∀ (kf vf : Bool) (calls : List (HtCall κ ν)),
      (htNew hash eq kf vf : HtTable κ ν).run calls = some (mapRun eq [] calls) ↔
        ∀ c ∈ calls, c.HasPointer) ∧
      ∀ (t : HtTable κ ν) (m : List (κ × Option ν)) (calls : List (HtCall κ ν)),
        t.Represents m →
          (t.run calls = some (mapRun t.keyEq m calls) ↔ ∀ c ∈ calls, c.Safe t.keyEq m) := by
  refine ⟨fun kf vf calls => ?_, fun t m calls ht => ht.run_iff calls⟩
  have hnew : (htNew hash eq kf vf : HtTable κ ν).Represents [] := represents_htNew h kf vf
  calc (htNew hash eq kf vf : HtTable κ ν).run calls = some (mapRun eq [] calls)
      ↔ ∀ c ∈ calls, c.Safe eq [] := hnew.run_iff calls
    _ ↔ ∀ c ∈ calls, c.HasPointer := forall₂_congr fun c _ => safe_nil_iff eq c

theorem htAgree_beq {α : Type} [BEq α] [LawfulBEq α] (hash : α → UInt64) :
    HtAgree (fun a b => a == b) hash where
  refl := by simp
  symm := by
    intro a b hab
    rw [eq_of_beq hab]
    exact beq_self_eq_true b
  trans := by
    intro a b c hab hbc
    rw [eq_of_beq hab, eq_of_beq hbc]
    exact beq_self_eq_true c
  hash_eq := by
    intro a b hab
    rw [eq_of_beq hab]

/-- Two look-ups. -/
theorem htRun_two_lookups :
    (htNew (fun key => key) (fun a b => a == b) true true : HtTable UInt64 ℕ).run
      [.get 1, .getEx 2 true, .count] = some [.value none, .got false (some none), .number 0] :=
  ((htRun_iff (htAgree_beq fun key => key)).1 true true [.get 1, .getEx 2 true, .count]).mpr (by
    simp [HtCall.HasPointer])

/-- The first insertion writes to NULL. -/
theorem htRun_insert_fails :
    ¬ ∀ calls : List (HtCall UInt64 ℕ),
      (htNew (fun key => key) (fun a b => a == b) true true : HtTable UInt64 ℕ).run calls =
        some (mapRun (fun a b => a == b) [] calls) := by
  intro h
  have hrun : (htNew (fun key => key) (fun a b => a == b) true true : HtTable UInt64 ℕ).run
      [.insert 1 (some 10)] = none := by decide +kernel
  have hclaim := h [.insert 1 (some 10)]
  rw [hrun] at hclaim
  cases hclaim

end WebcomSdk.Collection

import WebcomSdk.Collection.Ht

/-!
The iterator of `lib/collection/ht.c`: a bucket index and a place in the chain of
that bucket. What it has left to return are the rest of the chain and the buckets
after it.
-/

namespace WebcomSdk.Collection

/-- `enum iter_state`. -/
inductive IterState where
  | init
  | iterating
  | invalid
  deriving Repr, DecidableEq

/-- A `ht_iter_t`, without the pointer to the table. -/
structure HtIter (κ ν : Type) where
  b : ℕ
  s : IterState
  c : HtChain κ ν
  deriving Repr, DecidableEq

variable {κ ν : Type}

/-- The index is left as it is. -/
def htItInit (it : HtIter κ ν) : HtIter κ ν := { it with c := .null, s := .init }

/-- The loop of `ht_it_fetch_next`, from the bucket `b` on; `n` buckets are left. -/
def htItScan (t : HtTable κ ν) (it : HtIter κ ν) : ℕ → ℕ → Bool × HtIter κ ν
  | 0, b => (false, { it with b, s := .invalid })
  | n + 1, b =>
      match t.table.getD b .null with
      | .null => htItScan t it n (b + 1)
      | c => (true, { it with b, c })

/-- `none` says that a freed entry is read. -/
def htItFetchNext (t : HtTable κ ν) (it : HtIter κ ν) : Option (Bool × HtIter κ ν) :=
  if it.s = .invalid then some (false, it)
  else
    match it.c with
    | .freed => none
    | .item _ (.item e next) => some (true, { it with c := .item e next })
    | .item _ .freed => some (true, { it with c := .freed })
    | _ =>
        let it :=
          if it.s = .init then { it with b := 0, s := .iterating } else { it with b := it.b + 1 }
        some (htItScan t it (t.htCapacity - it.b) it.b)

/-- Some field of the current entry, NULL when the iteration is over. The outer
`none` says that there is no entry to read. -/
def htItRead {α : Type} (field : HtItem κ ν → Option α) (it : HtIter κ ν) : Option (Option α) :=
  if it.s = .invalid then some none
  else
    match it.c with
    | .item e _ => some (field e)
    | _ => none

def htItKey : HtIter κ ν → Option (Option κ) := htItRead fun e => some e.key

def htItVal : HtIter κ ν → Option (Option ν) := htItRead fun e => e.value

/-- The iterator after some calls of `ht_it_fetch_next`. -/
def htItFetches (t : HtTable κ ν) : ℕ → HtIter κ ν → Option (HtIter κ ν)
  | 0, it => some it
  | n + 1, it => (htItFetchNext t it).bind fun r => htItFetches t n r.2

/-- Call after call, the iterator comes to the entries of the list; all calls after
that return 0. -/
def HtIter.Yields (t : HtTable κ ν) (it : HtIter κ ν) (entries : List (HtItem κ ν)) : Prop :=
  ∀ n, ∃ it₀ it', htItFetches t n it = some it₀ ∧
    htItFetchNext t it₀ = some (decide (n < entries.length), it') ∧
    ∀ e, entries[n]? = some e → htItKey it' = some (some e.key) ∧ htItVal it' = some e.value

namespace HtIter

variable {t : HtTable κ ν} {it : HtIter κ ν} {rest : List (HtItem κ ν)}

/-- `rest` is what the iterator has left to return. -/
inductive Pending (t : HtTable κ ν) : HtIter κ ν → List (HtItem κ ν) → Prop
  | init {it : HtIter κ ν} (hs : it.s = .init) (hc : it.c = .null) : Pending t it t.entries
  | inChain {it : HtIter κ ν} {e : HtItem κ ν} {next : HtChain κ ν} (hs : it.s = .iterating)
      (hc : it.c = .item e next) (hlive : next.Live) (hb : it.b < t.table.length) :
      Pending t it (next.items ++ (t.table.drop (it.b + 1)).flatMap HtChain.items)
  | invalid {it : HtIter κ ν} (hs : it.s = .invalid) : Pending t it []

/-- What a call returns when `rest` was left. -/
structure Fetched (t : HtTable κ ν) (rest : List (HtItem κ ν)) (r : Bool × HtIter κ ν) : Prop where
  found : r.1 = !rest.isEmpty
  entry : ∀ e, rest.head? = some e → r.2.s = .iterating ∧ ∃ next, r.2.c = .item e next
  pending : Pending t r.2 rest.tail

/-- The entries from a bucket on. -/
theorem fetched_scan (ht : Bucketed t.mask t.table) (hs : it.s = .iterating) {n b : ℕ}
    (hn : b + n = t.table.length) :
    Fetched t ((t.table.drop b).flatMap HtChain.items) (htItScan t it n b) := by
  induction n generalizing b with
  | zero =>
      have hdrop : t.table.drop b = [] := List.drop_eq_nil_of_le (by omega)
      rw [hdrop, htItScan]
      exact ⟨rfl, by simp, .invalid rfl⟩
  | succ n ih =>
      have hlt : b < t.table.length := by omega
      have hlive : t.table[b].Live := ht.live _ (List.getElem_mem hlt)
      have hget : t.table.getD b .null = t.table[b] := by
        rw [List.getD_eq_getElem?_getD, List.getElem?_eq_getElem hlt]
        rfl
      rw [List.drop_eq_getElem_cons hlt, List.flatMap_cons, htItScan, hget]
      cases hc : t.table[b] with
      | null => exact ih (by omega)
      | freed =>
          rw [hc] at hlive
          exact absurd hlive id
      | item e next =>
          rw [hc] at hlive
          refine ⟨rfl, fun e' he' => ⟨hs, next, ?_⟩, .inChain hs rfl hlive hlt⟩
          obtain rfl : e = e' := Option.some.inj he'
          rfl

/-- **The step.** -/
theorem Pending.fetch (ht : t.Sound) (h : Pending t it rest) :
    ∃ r, htItFetchNext t it = some r ∧ Fetched t rest r := by
  cases h with
  | init hs hc =>
      have hscan : Fetched t t.entries
          (htItScan t { it with b := 0, s := .iterating } t.htCapacity 0) :=
        fetched_scan ht.bucketed rfl ((Nat.zero_add _).trans ht.length.symm)
      refine ⟨_, ?_, hscan⟩
      rw [htItFetchNext, if_neg (by simp [hs]), hc]
      simp only [hs, if_true, Nat.sub_zero]
  | @inChain e next hs hc hlive hb =>
      cases next with
      | null =>
          have hscan : Fetched t ((t.table.drop (it.b + 1)).flatMap HtChain.items)
              (htItScan t { it with b := it.b + 1 } (t.htCapacity - (it.b + 1)) (it.b + 1)) := by
            have hs' : ({ it with b := it.b + 1 } : HtIter κ ν).s = .iterating := hs
            rw [← ht.length]
            exact fetched_scan ht.bucketed hs' (Nat.add_sub_cancel' hb)
          refine ⟨_, ?_, hscan⟩
          rw [htItFetchNext, if_neg (by simp [hs]), hc]
          simp only [hs]
          rfl
      | freed => exact absurd hlive id
      | item e' next =>
          refine ⟨(true, { it with c := .item e' next }), ?_, rfl, ?_, .inChain hs rfl hlive hb⟩
          · rw [htItFetchNext, if_neg (by simp [hs]), hc]
          · intro a ha
            obtain rfl : e' = a := Option.some.inj ha
            exact ⟨hs, next, rfl⟩
  | invalid hs =>
      refine ⟨(false, it), ?_, rfl, by simp, .invalid hs⟩
      rw [htItFetchNext, if_pos hs]

/-- **The run.** -/
theorem Pending.yields (ht : t.Sound) (h : Pending t it rest) : it.Yields t rest := by
  intro n
  induction n generalizing it rest with
  | zero =>
      obtain ⟨r, hfetch, hr⟩ := h.fetch ht
      refine ⟨it, r.2, rfl, ?_, fun e he => ?_⟩
      · have hfound : r.1 = decide (0 < rest.length) := by
          rw [hr.found]
          cases rest <;> simp
        rw [hfetch, ← hfound]
      · obtain ⟨hs, next, hc⟩ := hr.entry e (by rw [List.head?_eq_getElem?]; exact he)
        constructor
        · rw [htItKey, htItRead, hs, hc]
          rfl
        · rw [htItVal, htItRead, hs, hc]
          rfl
  | succ n ih =>
      obtain ⟨r, hfetch, hr⟩ := h.fetch ht
      obtain ⟨it₀, it', hruns, hlast, hentry⟩ := ih hr.pending
      refine ⟨it₀, it', ?_, ?_, fun e he => hentry e ?_⟩
      · rw [htItFetches, hfetch]
        exact hruns
      · rw [hlast, List.length_tail]
        congr 2
        simp only [decide_eq_decide]
        omega
      · rw [List.getElem?_tail]
        exact he

end HtIter

/-- **Rehashing and iterating.** `ht_rehash` to any allowed factor keeps the entries
and puts each in its bucket; an iterator comes to every entry of the table once, and
then to no more. -/
theorem htRehash_entries {t : HtTable κ ν} (ht : t.Sound) :
    (∀ newFactor, htMinTwoFactor ≤ newFactor → newFactor ≤ htMaxTwoFactor →
      ∃ t', htRehash t newFactor = some t' ∧ t'.hashTwoFactor = newFactor ∧ t'.Sound ∧
        t'.entries.Perm t.entries ∧ ∀ it, (htItInit it).Yields t' t'.entries) ∧
      ∀ it, (htItInit it).Yields t t.entries := by
  have hall : ∀ {t : HtTable κ ν}, t.Sound → ∀ it, (htItInit it).Yields t t.entries :=
    fun h it => (HtIter.Pending.init rfl rfl).yields h
  refine ⟨fun newFactor hmin hmax => ?_, hall ht⟩
  obtain ⟨t', hrehash, hkept, hfactor⟩ := ht.rehash hmin hmax
  exact ⟨t', hrehash, hfactor, hkept.sound, hkept.entries, hall hkept.sound⟩

/-- Two entries of one bucket. -/
theorem htRehash_entries_two :
    ∃ t', htRehash (((htNew (fun key => key) (fun a b => a == b) true true).link
          ⟨1, 1, some 10⟩).link ⟨9, 9, some 90⟩ : HtTable UInt64 ℕ) 5 = some t' ∧
      t'.hashTwoFactor = 5 ∧ t'.Sound ∧
      t'.entries.Perm [⟨9, 9, some 90⟩, ⟨1, 1, some 10⟩] ∧
      ∀ it, (htItInit it).Yields t' t'.entries :=
  (htRehash_entries (((sound_htNew (fun key => key) (fun a b => a == b) true true).link
    ⟨1, 1, some 10⟩).link ⟨9, 9, some 90⟩)).1 5 (by decide) (by decide)

end WebcomSdk.Collection

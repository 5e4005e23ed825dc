import WebcomSdk.Collection.Avl

/-!
The tree as a finite map. Rotations keep the in-order list, so everything the
operations do can be said about that list: a search tree is one whose list is
sorted, lookup is membership, insertion adds one entry, removal filters one
out, and an iterator started at a key returns the rest of the list from there.
-/

namespace WebcomSdk.Collection

open AvlTree Std

variable {κ β : Type} {cmp : κ → κ → Ordering}

/-! ### In-order lists through rotations -/

@[simp] theorem toList_avlUpdateHeight (t : AvlTree κ β) :
    (avlUpdateHeight t).toList = t.toList := by
  cases t <;> rfl

@[simp] theorem toList_avlRotl (t : AvlTree κ β) : (avlRotl t).toList = t.toList := by
  unfold avlRotl
  split
  · simp
  · rfl

@[simp] theorem toList_avlRotr (t : AvlTree κ β) : (avlRotr t).toList = t.toList := by
  unfold avlRotr
  split
  · simp
  · rfl

@[simp] theorem toList_avlBalance (t : AvlTree κ β) : (avlBalance t).toList = t.toList := by
  cases t with
  | nil => rfl
  | node l k v r h =>
      simp only [avlBalance]
      split_ifs <;> simp

@[simp] theorem toList_avlMovr (l r : AvlTree κ β) :
    (avlMovr l r).toList = l.toList ++ r.toList := by
  induction l with
  | nil => rfl
  | node l k v m h _ ih => simp [avlMovr, ih]

/-- The keys of a tree never change place under a write to an entry's data. -/
@[simp] theorem keys_avlModify (key : κ) (f : β → β) (t : AvlTree κ β) :
    (avlModify cmp key f t).toList.map Prod.fst = t.toList.map Prod.fst := by
  induction t with
  | nil => rfl
  | node l k v r h ihl ihr =>
      rw [avlModify]
      cases cmp key k <;> simp [ihl, ihr]

/-! ### Search trees -/

namespace AvlTree

/-- The tree is a search tree for `cmp`. -/
def Ordered (cmp : κ → κ → Ordering) (t : AvlTree κ β) : Prop :=
  t.toList.Pairwise fun a b => cmp a.1 b.1 = .lt

@[simp] theorem ordered_nil : (nil : AvlTree κ β).Ordered cmp := List.Pairwise.nil

theorem ordered_node_iff [TransCmp cmp] {l r : AvlTree κ β} {k : κ} {v : β} {h : ℕ} :
    (node l k v r h).Ordered cmp ↔ l.Ordered cmp ∧ r.Ordered cmp ∧
      (∀ a ∈ l.toList, cmp a.1 k = .lt) ∧ ∀ b ∈ r.toList, cmp k b.1 = .lt := by
  simp only [Ordered, toList_node, List.pairwise_append, List.pairwise_cons, List.mem_cons]
  constructor
  · rintro ⟨hl, ⟨hkr, hr⟩, hcross⟩
    exact ⟨hl, hr, fun a ha => hcross a ha _ (.inl rfl), hkr⟩
  · rintro ⟨hl, hr, hlk, hkr⟩
    refine ⟨hl, ⟨hkr, hr⟩, ?_⟩
    rintro a ha b (rfl | hb)
    · exact hlk a ha
    · exact TransCmp.lt_trans (hlk a ha) (hkr b hb)

/-- Ordering is a property of the in-order list of keys alone. -/
theorem Ordered.of_keys {γ : Type} {t : AvlTree κ β} {u : AvlTree κ γ} (ht : t.Ordered cmp)
    (hkeys : u.toList.map Prod.fst = t.toList.map Prod.fst) : u.Ordered cmp := by
  have h : (t.toList.map Prod.fst).Pairwise fun a b => cmp a b = .lt :=
    List.pairwise_map.mpr ht
  rw [← hkeys] at h
  exact List.pairwise_map.mp h

end AvlTree

/-- A key that is not above the root of a search tree is below everything on
the right of it. -/
theorem AvlTree.Ordered.cmp_right [TransCmp cmp] {l r : AvlTree κ β} {k : κ} {v : β} {h : ℕ}
    (ht : (node l k v r h).Ordered cmp) {key : κ} (hc : cmp key k ≠ .gt) :
    ∀ e ∈ r.toList, cmp key e.1 = .lt := by
  obtain ⟨-, -, -, hkr⟩ := ordered_node_iff.mp ht
  intro e he
  exact TransCmp.lt_of_isLE_of_lt (Ordering.isLE_iff_ne_gt.mpr hc) (hkr e he)

theorem AvlTree.Ordered.cmp_left [TransCmp cmp] {l r : AvlTree κ β} {k : κ} {v : β} {h : ℕ}
    (ht : (node l k v r h).Ordered cmp) {key : κ} (hc : cmp key k ≠ .lt) :
    ∀ e ∈ l.toList, cmp key e.1 = .gt := by
  obtain ⟨-, -, hlk, -⟩ := ordered_node_iff.mp ht
  intro e he
  exact TransCmp.gt_of_isGE_of_gt (Ordering.isGE_iff_ne_lt.mpr hc)
    (OrientedCmp.gt_of_lt (hlk e he))

theorem avlGet_eq_some_iff [TransCmp cmp] {t : AvlTree κ β} (ht : t.Ordered cmp) {key : κ}
    {e : κ × β} : avlGet cmp key t = some e ↔ e ∈ t.toList ∧ cmp key e.1 = .eq := by
  induction t with
  | nil => simp [avlGet]
  | node l k v r h ihl ihr =>
      obtain ⟨hl, hr, -, -⟩ := ordered_node_iff.mp ht
      rw [avlGet, toList_node, List.mem_append, List.mem_cons]
      cases hc : cmp key k with
      | lt =>
          have hright := ht.cmp_right (show cmp key k ≠ .gt by simp [hc])
          simp only [ihl hl]
          constructor
          · rintro ⟨he, heq⟩
            exact ⟨.inl he, heq⟩
          · rintro ⟨he | rfl | he, heq⟩
            · exact ⟨he, heq⟩
            · simp [hc] at heq
            · simp [hright e he] at heq
      | gt =>
          have hleft := ht.cmp_left (show cmp key k ≠ .lt by simp [hc])
          simp only [ihr hr]
          constructor
          · rintro ⟨he, heq⟩
            exact ⟨.inr (.inr he), heq⟩
          · rintro ⟨he | rfl | he, heq⟩
            · simp [hleft e he] at heq
            · simp [hc] at heq
            · exact ⟨he, heq⟩
      | eq =>
          have hright := ht.cmp_right (show cmp key k ≠ .gt by simp [hc])
          have hleft := ht.cmp_left (show cmp key k ≠ .lt by simp [hc])
          simp only [Option.some.injEq]
          constructor
          · rintro rfl
            exact ⟨.inr (.inl rfl), hc⟩
          · rintro ⟨he | rfl | he, heq⟩
            · simp [hleft e he] at heq
            · rfl
            · simp [hright e he] at heq

theorem avlGet_eq_none_iff [TransCmp cmp] {t : AvlTree κ β} (ht : t.Ordered cmp) {key : κ} :
    avlGet cmp key t = none ↔ ∀ e ∈ t.toList, cmp key e.1 ≠ .eq := by
  constructor
  · intro hnone e he heq
    rw [(avlGet_eq_some_iff ht).mpr ⟨he, heq⟩] at hnone
    contradiction
  · intro hall
    cases hget : avlGet cmp key t with
    | none => rfl
    | some e =>
        obtain ⟨he, heq⟩ := (avlGet_eq_some_iff ht).mp hget
        exact absurd heq (hall e he)

/-! ### Insertion -/

theorem mem_avlInsertRec (key : κ) (val : β) (t : AvlTree κ β) {e : κ × β} :
    e ∈ (avlInsertRec cmp key val t).toList ↔ e = (key, val) ∨ e ∈ t.toList := by
  induction t with
  | nil => simp [avlInsertRec]
  | node l k v r h ihl ihr =>
      rw [avlInsertRec]
      split <;> simp only [toList_avlBalance, toList_node, List.mem_append, List.mem_cons, ihl, ihr]
      · tauto
      · tauto

theorem ordered_avlInsertRec [TransCmp cmp] {t : AvlTree κ β} (ht : t.Ordered cmp) {key : κ}
    (val : β) (hnew : avlGet cmp key t = none) : (avlInsertRec cmp key val t).Ordered cmp := by
  induction t with
  | nil => simp [avlInsertRec, Ordered]
  | node l k v r h ihl ihr =>
      obtain ⟨hl, hr, hlk, hkr⟩ := ordered_node_iff.mp ht
      rw [avlGet] at hnew
      rw [avlInsertRec]
      split <;> rename_i hc <;> rw [Ordered, toList_avlBalance, ← Ordered, ordered_node_iff]
      · simp only [hc] at hnew
        refine ⟨ihl hl hnew, hr, ?_, hkr⟩
        intro a ha
        rcases (mem_avlInsertRec key val l).mp ha with rfl | ha
        · exact hc
        · exact hlk a ha
      · have hgt : cmp key k = .gt := by
          cases hc' : cmp key k with
          | lt => exact absurd hc' hc
          | eq => simp [hc'] at hnew
          | gt => rfl
        simp only [hgt] at hnew
        refine ⟨hl, ihr hr hnew, hlk, ?_⟩
        intro b hb
        rcases (mem_avlInsertRec key val r).mp hb with rfl | hb
        · exact OrientedCmp.gt_iff_lt.mp hgt
        · exact hkr b hb

/-! ### Removal -/

/-- In a search tree at most one entry compares equal, and it is filtered out. -/
theorem toList_avlRemove [TransCmp cmp] {t : AvlTree κ β} (ht : t.Ordered cmp) (key : κ) :
    (avlRemove cmp key t).toList = t.toList.filter fun e => cmp key e.1 != .eq := by
  unfold avlRemove
  induction t with
  | nil => rfl
  | node l k v r h ihl ihr =>
      obtain ⟨hl, hr, -, -⟩ := ordered_node_iff.mp ht
      have hright (hc : cmp key k ≠ .gt) :
          r.toList.filter (fun e => cmp key e.1 != .eq) = r.toList :=
        List.filter_eq_self.mpr fun e he => by simp [ht.cmp_right hc e he]
      have hleft (hc : cmp key k ≠ .lt) :
          l.toList.filter (fun e => cmp key e.1 != .eq) = l.toList :=
        List.filter_eq_self.mpr fun e he => by simp [ht.cmp_left hc e he]
      rw [avlRemoveRec, toList_node, List.filter_append, List.filter_cons]
      cases hc : cmp key k with
      | lt =>
          simp only [hright (by simp [hc]), ← ihl hl]
          split <;> simp
      | gt =>
          simp only [hleft (by simp [hc]), ← ihr hr]
          split <;> simp
      | eq => simp [hleft (by simp [hc]), hright (by simp [hc])]

theorem ordered_avlRemove [TransCmp cmp] {t : AvlTree κ β} (ht : t.Ordered cmp) (key : κ) :
    (avlRemove cmp key t).Ordered cmp := by
  rw [Ordered, toList_avlRemove ht]
  exact List.Pairwise.filter _ ht

/-! ### Writes and walks -/

theorem ordered_avlModify {t : AvlTree κ β} (ht : t.Ordered cmp) (key : κ) (f : β → β) :
    (avlModify cmp key f t).Ordered cmp :=
  ht.of_keys (keys_avlModify key f t)

theorem toList_avlModify [TransCmp cmp] {t : AvlTree κ β} (ht : t.Ordered cmp) (key : κ)
    (f : β → β) : (avlModify cmp key f t).toList =
      t.toList.map fun e => if cmp key e.1 = .eq then (e.1, f e.2) else e := by
  induction t with
  | nil => rfl
  | node l k v r h ihl ihr =>
      obtain ⟨hl, hr, -, -⟩ := ordered_node_iff.mp ht
      have hsame (s : AvlTree κ β) (hs : ∀ e ∈ s.toList, cmp key e.1 ≠ .eq) :
          s.toList.map (fun e => if cmp key e.1 = .eq then (e.1, f e.2) else e) = s.toList :=
        (List.map_congr_left fun e he => if_neg (hs e he)).trans (List.map_id' _)
      have hright (hc : cmp key k ≠ .gt) := hsame r fun e he => by simp [ht.cmp_right hc e he]
      have hleft (hc : cmp key k ≠ .lt) := hsame l fun e he => by simp [ht.cmp_left hc e he]
      rw [avlModify, toList_node, List.map_append, List.map_cons]
      cases hc : cmp key k with
      | lt => simp [hright (by simp [hc]), ihl hl]
      | gt => simp [hleft (by simp [hc]), ihr hr]
      | eq => simp [hright (by simp [hc]), hleft (by simp [hc])]

/-- An iterator started at `key` skips exactly the entries below it. -/
theorem avlFrom_eq_filter [TransCmp cmp] {t : AvlTree κ β} (ht : t.Ordered cmp) (key : κ) :
    avlFrom cmp key t = t.toList.filter fun e => cmp key e.1 != .gt := by
  induction t with
  | nil => rfl
  | node l k v r h ihl ihr =>
      obtain ⟨hl, hr, -, -⟩ := ordered_node_iff.mp ht
      have hright (hc : cmp key k ≠ .gt) :
          r.toList.filter (fun e => cmp key e.1 != .gt) = r.toList :=
        List.filter_eq_self.mpr fun e he => by simp [ht.cmp_right hc e he]
      have hleft (hc : cmp key k ≠ .lt) :
          l.toList.filter (fun e => cmp key e.1 != .gt) = [] :=
        List.filter_eq_nil_iff.mpr fun e he => by simp [ht.cmp_left hc e he]
      rw [avlFrom, toList_node, List.filter_append, List.filter_cons]
      cases hc : cmp key k with
      | lt => simp [hright (by simp [hc]), ihl hl]
      | gt => simp [hleft (by simp [hc]), ihr hr]
      | eq => simp [hright (by simp [hc]), hleft (by simp [hc])]

/-! ### Sorted lists of entries -/

/-- A sorted list is determined by its members. -/
theorem sorted_ext [TransCmp cmp] {l l' : List (κ × β)}
    (hl : l.Pairwise fun a b => cmp a.1 b.1 = .lt) (hl' : l'.Pairwise fun a b => cmp a.1 b.1 = .lt)
    (h : ∀ e, e ∈ l ↔ e ∈ l') : l = l' := by
  have hne : ∀ {a b : κ × β}, cmp a.1 b.1 = .lt → a ≠ b := by
    rintro a b hlt rfl
    have hself : cmp a.1 a.1 = .eq := ReflCmp.compare_self
    rw [hself] at hlt
    cases hlt
  have hperm : l.Perm l' := (List.perm_ext_iff_of_nodup (hl.imp hne) (hl'.imp hne)).mpr h
  refine hperm.eq_of_pairwise (fun a b _ _ hab hba => ?_) hl hl'
  rw [OrientedCmp.gt_of_lt hab] at hba
  cases hba

/-- An insertion above all keys appends the entry. -/
theorem toList_avlInsertRec_last (key : κ) (val : β) (t : AvlTree κ β)
    (h : ∀ e ∈ t.toList, cmp key e.1 = .gt) :
    (avlInsertRec cmp key val t).toList = t.toList ++ [(key, val)] := by
  induction t with
  | nil => rfl
  | node l k v r height ihl ihr =>
      rw [toList_node, List.forall_mem_append, List.forall_mem_cons] at h
      rw [avlInsertRec, if_neg (by simp [h.2.1]), toList_avlBalance]
      simp [ihr h.2.2]

/-- A list of entries, inserted one by one. -/
def avlInsertAll (cmp : κ → κ → Ordering) (t : AvlTree κ β) (entries : List (κ × β)) :
    AvlTree κ β :=
  entries.foldl (fun t e => (avlInsert cmp e.1 e.2 t).getD t) t

theorem ordered_avlInsertAll [TransCmp cmp] {t : AvlTree κ β} (ht : t.Ordered cmp)
    (entries : List (κ × β)) : (avlInsertAll cmp t entries).Ordered cmp := by
  induction entries generalizing t with
  | nil => exact ht
  | cons e entries ih =>
      apply ih
      cases hget : avlGet cmp e.1 t with
      | none => simpa [avlInsert, hget] using ordered_avlInsertRec ht e.2 hget
      | some e' => simpa [avlInsert, hget] using ht

/-- Inserting a sorted list above all keys of a tree appends it. -/
theorem toList_avlInsertAll [TransCmp cmp] {entries : List (κ × β)}
    (hsorted : entries.Pairwise fun a b => cmp a.1 b.1 = .lt) :
    ∀ t : AvlTree κ β, t.Ordered cmp → (∀ a ∈ t.toList, ∀ b ∈ entries, cmp a.1 b.1 = .lt) →
      (avlInsertAll cmp t entries).Ordered cmp ∧
        (avlInsertAll cmp t entries).toList = t.toList ++ entries := by
  induction entries with
  | nil => exact fun t ht _ => ⟨ht, by simp [avlInsertAll]⟩
  | cons e entries ih =>
      intro t ht hbelow
      obtain ⟨he, hsorted⟩ := List.pairwise_cons.mp hsorted
      have hnone : avlGet cmp e.1 t = none := by
        rw [avlGet_eq_none_iff ht]
        intro a ha heq
        rw [OrientedCmp.gt_of_lt (hbelow a ha e List.mem_cons_self)] at heq
        cases heq
      have hinsert : (avlInsert cmp e.1 e.2 t).getD t = avlInsertRec cmp e.1 e.2 t := by
        simp [avlInsert, hnone]
      have hlast : (avlInsertRec cmp e.1 e.2 t).toList = t.toList ++ [e] :=
        toList_avlInsertRec_last _ _ _ fun a ha =>
          OrientedCmp.gt_of_lt (hbelow a ha e List.mem_cons_self)
      have hbelow' : ∀ a ∈ (avlInsertRec cmp e.1 e.2 t).toList, ∀ b ∈ entries,
          cmp a.1 b.1 = .lt := by
        rw [hlast]
        intro a ha b hb
        rcases List.mem_append.mp ha with ha | ha
        · exact hbelow a ha b (List.mem_cons_of_mem _ hb)
        · exact List.mem_singleton.mp ha ▸ he b hb
      obtain ⟨hord, hlist⟩ := ih hsorted _ (ordered_avlInsertRec ht e.2 hnone) hbelow'
      rw [avlInsertAll, List.foldl_cons, hinsert]
      refine ⟨hord, ?_⟩
      show (avlInsertAll cmp (avlInsertRec cmp e.1 e.2 t) entries).toList = _
      rw [hlist, hlast]
      simp

theorem toList_avlInsertAll_nil [TransCmp cmp] {entries : List (κ × β)}
    (hsorted : entries.Pairwise fun a b => cmp a.1 b.1 = .lt) :
    (avlInsertAll cmp .nil entries).Ordered cmp ∧
      (avlInsertAll cmp .nil entries).toList = entries := by
  simpa using toList_avlInsertAll hsorted .nil AvlTree.ordered_nil (by simp)

/-! ### Writes through pointers -/

/-- Only the value at the key matters. -/
theorem avlModify_congr {f g : β → β} {key : κ} (t : AvlTree κ β)
    (h : ∀ v ∈ avlFind cmp key t, f v = g v) : avlModify cmp key f t = avlModify cmp key g t := by
  induction t with
  | nil => rfl
  | node l k v r height ihl ihr =>
      simp only [avlFind, avlGet] at h ihl ihr
      rw [avlModify, avlModify]
      cases hc : cmp key k with
      | lt =>
          rw [hc] at h
          exact congrArg (node · k v r height) (ihl h)
      | gt =>
          rw [hc] at h
          exact congrArg (node l k v · height) (ihr h)
      | eq =>
          rw [hc] at h
          exact congrArg (node l k · r height) (h v rfl)

theorem avlModify_id (key : κ) (t : AvlTree κ β) : avlModify cmp key id t = t := by
  induction t with
  | nil => rfl
  | node l k v r height ihl ihr =>
      rw [avlModify, ihl, ihr]
      cases cmp key k <;> rfl

theorem avlModify_avlModify (f g : β → β) (key : κ) (t : AvlTree κ β) :
    avlModify cmp key g (avlModify cmp key f t) = avlModify cmp key (g ∘ f) t := by
  induction t with
  | nil => rfl
  | node l k v r height ihl ihr =>
      rw [avlModify, avlModify]
      cases hc : cmp key k with
      | lt => simp only [avlModify, hc, ihl]
      | gt => simp only [avlModify, hc, ihr]
      | eq => simp only [avlModify, hc, Function.comp_apply]

/-- The write is read back through the same pointer. -/
theorem avlFind_avlModify_self (f : β → β) (key : κ) (t : AvlTree κ β) :
    avlFind cmp key (avlModify cmp key f t) = (avlFind cmp key t).map f := by
  induction t with
  | nil => rfl
  | node l k v r height ihl ihr =>
      simp only [avlFind] at ihl ihr ⊢
      rw [avlModify]
      cases hc : cmp key k with
      | lt => simpa only [avlGet, hc] using ihl
      | gt => simpa only [avlGet, hc] using ihr
      | eq => simp [avlGet, hc]

section Map

variable {γ : Type} {g : β → γ}

theorem toList_map (t : AvlTree κ β) : (t.map g).toList = t.toList.map (Prod.map id g) := by
  induction t with
  | nil => rfl
  | node l k v r h ihl ihr => simp [AvlTree.map, ihl, ihr]

/-- What a write does not change is not changed in the tree. -/
theorem map_avlModify {f : β → β} (key : κ) (t : AvlTree κ β) (h : ∀ v, g (f v) = g v) :
    (avlModify cmp key f t).map g = t.map g := by
  induction t with
  | nil => rfl
  | node l k v r height ihl ihr =>
      rw [avlModify]
      split <;> simp only [AvlTree.map, ihl, ihr, h]

theorem avlFind_map (key : κ) (t : AvlTree κ β) :
    avlFind cmp key (t.map g) = (avlFind cmp key t).map g := by
  induction t with
  | nil => rfl
  | node l k v r height ihl ihr =>
      simp only [avlFind, avlGet, AvlTree.map] at ihl ihr ⊢
      cases cmp key k with
      | lt => exact ihl
      | gt => exact ihr
      | eq => rfl

theorem ordered_map {t : AvlTree κ β} : (t.map g).Ordered cmp ↔ t.Ordered cmp := by
  rw [Ordered, Ordered, toList_map, List.pairwise_map]
  rfl

end Map

section Find

variable [TransCmp cmp] [LawfulEqCmp cmp] {t : AvlTree κ β}

theorem avlFind_eq_some_iff (ht : t.Ordered cmp) {key : κ} {v : β} :
    avlFind cmp key t = some v ↔ (key, v) ∈ t.toList := by
  simp only [avlFind, Option.map_eq_some_iff, avlGet_eq_some_iff ht]
  constructor
  · rintro ⟨⟨k, v'⟩, ⟨he, heq⟩, rfl⟩
    rwa [LawfulEqCmp.compare_eq_iff_eq.mp heq]
  · intro he
    exact ⟨(key, v), ⟨he, ReflCmp.compare_self⟩, rfl⟩

omit [TransCmp cmp] [LawfulEqCmp cmp] in
theorem avlFind_eq_none_iff {key : κ} : avlFind cmp key t = none ↔ avlGet cmp key t = none :=
  Option.map_eq_none_iff

theorem avlFind_avlInsertRec (ht : t.Ordered cmp) {key : κ} (val : β)
    (hnew : avlFind cmp key t = none) (q : κ) :
    avlFind cmp q (avlInsertRec cmp key val t) =
      if cmp q key = .eq then some val else avlFind cmp q t := by
  have hnew' := avlFind_eq_none_iff.mp hnew
  apply Option.ext
  intro v
  rw [avlFind_eq_some_iff (ordered_avlInsertRec ht val hnew'), mem_avlInsertRec,
    ← avlFind_eq_some_iff ht, Prod.mk.injEq]
  by_cases hq : cmp q key = .eq
  · obtain rfl := LawfulEqCmp.compare_eq_iff_eq.mp hq
    simp [hq, hnew, eq_comm]
  · have : q ≠ key := fun h => hq (LawfulEqCmp.compare_eq_iff_eq.mpr h)
    simp [hq, this]

theorem avlFind_avlRemove (ht : t.Ordered cmp) (key q : κ) :
    avlFind cmp q (avlRemove cmp key t) =
      if cmp q key = .eq then none else avlFind cmp q t := by
  apply Option.ext
  intro v
  rw [avlFind_eq_some_iff (ordered_avlRemove ht key), toList_avlRemove ht, List.mem_filter,
    ← avlFind_eq_some_iff ht]
  by_cases hq : cmp q key = .eq
  · simp [hq, OrientedCmp.eq_symm hq]
  · have : cmp key q ≠ .eq := fun h => hq (OrientedCmp.eq_symm h)
    simp [hq, this]

theorem avlFind_avlModify (ht : t.Ordered cmp) (key : κ) (f : β → β) (q : κ) :
    avlFind cmp q (avlModify cmp key f t) =
      if cmp q key = .eq then (avlFind cmp q t).map f else avlFind cmp q t := by
  apply Option.ext
  intro v
  rw [avlFind_eq_some_iff (ordered_avlModify ht key f), toList_avlModify ht, List.mem_map]
  by_cases hq : cmp q key = .eq
  · obtain rfl := LawfulEqCmp.compare_eq_iff_eq.mp hq
    simp only [hq, if_true, Option.map_eq_some_iff, avlFind_eq_some_iff ht]
    constructor
    · rintro ⟨⟨k, w⟩, he, heq⟩
      by_cases hk : cmp q k = .eq
      · obtain rfl := LawfulEqCmp.compare_eq_iff_eq.mp hk
        simp only [hk, if_true, Prod.mk.injEq, true_and] at heq
        exact ⟨w, he, heq⟩
      · simp only [hk, if_false, Prod.mk.injEq] at heq
        exact absurd (heq.1 ▸ ReflCmp.compare_self) hk
    · rintro ⟨w, he, rfl⟩
      exact ⟨(q, w), he, by simp [ReflCmp.compare_self]⟩
  · simp only [hq, if_false, avlFind_eq_some_iff ht]
    constructor
    · rintro ⟨⟨k, w⟩, he, heq⟩
      by_cases hk : cmp key k = .eq
      · simp only [hk, if_true, Prod.mk.injEq] at heq
        exact absurd (heq.1 ▸ OrientedCmp.eq_symm hk) hq
      · simp only [hk, if_false] at heq
        exact heq ▸ he
    · intro he
      have : cmp key q ≠ .eq := fun h => hq (OrientedCmp.eq_symm h)
      exact ⟨(q, v), he, by simp [this]⟩

end Find

end WebcomSdk.Collection

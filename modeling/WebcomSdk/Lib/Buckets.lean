import Mathlib.Tactic

/-!
Lists of buckets. What a bucket is stays open; `items` are the items in it, and
`place` says in which bucket an item belongs.
-/

namespace WebcomSdk.Lib

variable {γ α : Type*} {items : γ → List α} {place : α → ℕ} {bs : List γ}

/-- Every item is in its bucket. -/
def Placed (items : γ → List α) (place : α → ℕ) (bs : List γ) : Prop :=
  ∀ i b, bs[i]? = some b → ∀ a ∈ items b, place a = i

theorem Placed.mem (h : Placed items place bs) {a : α} (ha : a ∈ bs.flatMap items) :
    ∃ b, bs[place a]? = some b ∧ a ∈ items b := by
  obtain ⟨b, hb, hab⟩ := List.mem_flatMap.mp ha
  obtain ⟨i, hi⟩ := List.mem_iff_getElem?.mp hb
  obtain rfl : place a = i := h i b hi a hab
  exact ⟨b, hi, hab⟩

theorem placed_replicate {b : γ} (hb : items b = []) (n : ℕ) :
    Placed items place (List.replicate n b) := by
  intro i b' hi a ha
  obtain rfl := List.eq_of_mem_replicate (List.mem_of_getElem? hi)
  rw [hb] at ha
  cases ha

/-- One bucket is changed. -/
theorem Placed.modify (h : Placed items place bs) {i : ℕ} {f : γ → γ}
    (hf : ∀ b, bs[i]? = some b → ∀ a ∈ items (f b), place a = i) :
    Placed items place (bs.modify i f) := by
  intro j b hj a ha
  rw [List.getElem?_modify] at hj
  obtain ⟨b', hb', rfl⟩ := Option.map_eq_some_iff.mp hj
  split at ha
  next heq =>
    subst heq
    exact hf b' hb' a ha
  next => exact h j b' hb' a ha

/-- The items, without and with the change of one bucket. -/
theorem flatMap_modify {i : ℕ} (hi : i < bs.length) (f : γ → γ) :
    ∃ b rest, bs[i]? = some b ∧ (bs.flatMap items).Perm (items b ++ rest) ∧
      ((bs.modify i f).flatMap items).Perm (items (f b) ++ rest) := by
  obtain ⟨l, b, r, hbs, hlen, hmodify⟩ := List.exists_of_modify f hi
  refine ⟨b, l.flatMap items ++ r.flatMap items, ?_, ?_, ?_⟩
  · rw [hbs, List.getElem?_append_right hlen.le, hlen, Nat.sub_self]
    rfl
  · rw [hbs, List.flatMap_append, List.flatMap_cons]
    exact List.perm_append_comm_assoc _ _ _
  · rw [hmodify, List.flatMap_append, List.flatMap_cons]
    exact List.perm_append_comm_assoc _ _ _

/-- An item is put into a bucket. -/
theorem flatMap_modify_cons {i : ℕ} (hi : i < bs.length) {f : γ → γ} {a : α}
    (hf : ∀ b, items (f b) = a :: items b) :
    ((bs.modify i f).flatMap items).Perm (a :: bs.flatMap items) := by
  obtain ⟨b, rest, -, hbefore, hafter⟩ := @flatMap_modify γ α items bs i hi f
  rw [hf] at hafter
  exact hafter.trans (hbefore.symm.cons a)

end WebcomSdk.Lib

import WebcomSdk.Collection.AvlIterator
import WebcomSdk.Collection.AvlSet

/-!
Comparators that agree on the keys that occur. A search only compares the key
with keys of the tree, so what the operations do depends on the comparator there
and nowhere else.
-/

namespace WebcomSdk.Collection

open Std

variable {κ β : Type} {cmp cmp' : κ → κ → Ordering}

/-! ### Agreement -/

/-- The keys of the tree are in `S`. -/
def AvlTree.KeysIn (S : Set κ) (t : AvlTree κ β) : Prop := ∀ e ∈ t.toList, e.1 ∈ S

/-- The comparators agree on `S`. -/
def AgreeOn (S : Set κ) (cmp cmp' : κ → κ → Ordering) : Prop :=
  ∀ x ∈ S, ∀ y ∈ S, cmp x y = cmp' x y

variable {S : Set κ}

theorem AvlTree.keysIn_node {l r : AvlTree κ β} {k : κ} {v : β} {h : ℕ} :
    (AvlTree.node l k v r h).KeysIn S ↔ l.KeysIn S ∧ k ∈ S ∧ r.KeysIn S := by
  rw [KeysIn, toList_node, List.forall_mem_append, List.forall_mem_cons]
  rfl

section Agree

variable (hagree : AgreeOn S cmp cmp') {key : κ} (hkey : key ∈ S)

include hagree hkey

theorem avlGet_agree {t : AvlTree κ β} (ht : t.KeysIn S) :
    avlGet cmp key t = avlGet cmp' key t := by
  induction t with
  | nil => rfl
  | node l k v r h ihl ihr =>
      obtain ⟨hl, hk, hr⟩ := AvlTree.keysIn_node.mp ht
      rw [avlGet, avlGet, ihl hl, ihr hr, hagree key hkey k hk]

theorem avlFind_agree {t : AvlTree κ β} (ht : t.KeysIn S) :
    avlFind cmp key t = avlFind cmp' key t := by
  rw [avlFind, avlFind, avlGet_agree hagree hkey ht]

theorem avlInsertRec_agree {t : AvlTree κ β} (ht : t.KeysIn S) (val : β) :
    avlInsertRec cmp key val t = avlInsertRec cmp' key val t := by
  induction t with
  | nil => rfl
  | node l k v r h ihl ihr =>
      obtain ⟨hl, hk, hr⟩ := AvlTree.keysIn_node.mp ht
      rw [avlInsertRec, avlInsertRec, ihl hl, ihr hr, hagree key hkey k hk]

theorem avlInsert_agree {t : AvlTree κ β} (ht : t.KeysIn S) (val : β) :
    avlInsert cmp key val t = avlInsert cmp' key val t := by
  rw [avlInsert, avlInsert, avlGet_agree hagree hkey ht, avlInsertRec_agree hagree hkey ht]

theorem avlRemoveRec_agree {t : AvlTree κ β} (ht : t.KeysIn S) :
    avlRemoveRec cmp key t = avlRemoveRec cmp' key t := by
  induction t with
  | nil => rfl
  | node l k v r h ihl ihr =>
      obtain ⟨hl, hk, hr⟩ := AvlTree.keysIn_node.mp ht
      rw [avlRemoveRec, avlRemoveRec, ihl hl, ihr hr, hagree key hkey k hk]

theorem avlRemove_agree {t : AvlTree κ β} (ht : t.KeysIn S) :
    avlRemove cmp key t = avlRemove cmp' key t := by
  rw [avlRemove, avlRemove, avlRemoveRec_agree hagree hkey ht]

theorem avlModify_agree {t : AvlTree κ β} (ht : t.KeysIn S) (f : β → β) :
    avlModify cmp key f t = avlModify cmp' key f t := by
  induction t with
  | nil => rfl
  | node l k v r h ihl ihr =>
      obtain ⟨hl, hk, hr⟩ := AvlTree.keysIn_node.mp ht
      rw [avlModify, avlModify, ihl hl, ihr hr, hagree key hkey k hk]

theorem avlFrom_agree {t : AvlTree κ β} (ht : t.KeysIn S) :
    avlFrom cmp key t = avlFrom cmp' key t := by
  induction t with
  | nil => rfl
  | node l k v r h ihl ihr =>
      obtain ⟨hl, hk, hr⟩ := AvlTree.keysIn_node.mp ht
      rw [avlFrom, avlFrom, ihl hl, ihr hr, hagree key hkey k hk]

theorem avlNode_agree {t : AvlTree κ β} (ht : t.KeysIn S) :
    avlNode cmp key t = avlNode cmp' key t := by
  induction t with
  | nil => rfl
  | node l k v r h ihl ihr =>
      obtain ⟨hl, hk, hr⟩ := AvlTree.keysIn_node.mp ht
      rw [avlNode, avlNode, ihl hl, ihr hr, hagree key hkey k hk]

theorem avlItStartAt_agree {t : AvlTree κ β} (ht : t.KeysIn S) (stack : List κ) :
    avlItStartAt cmp key t stack = avlItStartAt cmp' key t stack := by
  induction t generalizing stack with
  | nil => rfl
  | node l k v r h ihl ihr =>
      obtain ⟨hl, hk, hr⟩ := AvlTree.keysIn_node.mp ht
      rw [avlItStartAt, avlItStartAt, ihl hl, ihr hr, hagree key hkey k hk]

end Agree

/-! ### Keys after an operation -/

section Keys

variable {key : κ} {t : AvlTree κ β}

theorem mem_of_mem_avlRemove {e : κ × β} (he : e ∈ (avlRemove cmp key t).toList) :
    e ∈ t.toList := by
  rw [avlRemove] at he
  induction t with
  | nil => exact he
  | node l k v r h ihl ihr =>
      rw [avlRemoveRec] at he
      rw [AvlTree.toList_node, List.mem_append, List.mem_cons]
      cases hc : cmp key k with
      | lt =>
          simp only [hc, toList_rebalanced, AvlTree.toList_node, List.mem_append,
            List.mem_cons] at he
          exact he.imp_left ihl
      | gt =>
          simp only [hc, toList_rebalanced, AvlTree.toList_node, List.mem_append,
            List.mem_cons] at he
          exact he.imp_right (Or.imp_right ihr)
      | eq =>
          simp only [hc, toList_avlMovr, List.mem_append] at he
          exact he.imp_right .inr

theorem mem_of_avlGet {e : κ × β} (h : avlGet cmp key t = some e) : e ∈ t.toList := by
  induction t with
  | nil => cases h
  | node l k v r height ihl ihr =>
      rw [AvlTree.toList_node, List.mem_append, List.mem_cons]
      rw [avlGet] at h
      cases hc : cmp key k with
      | lt =>
          rw [hc] at h
          exact .inl (ihl h)
      | gt =>
          rw [hc] at h
          exact .inr (.inr (ihr h))
      | eq =>
          rw [hc] at h
          exact .inr (.inl (Option.some.inj h).symm)

theorem mem_of_mem_avlFrom {e : κ × β} (he : e ∈ avlFrom cmp key t) : e ∈ t.toList := by
  induction t with
  | nil => exact he
  | node l k v r height ihl ihr =>
      rw [avlFrom] at he
      rw [AvlTree.toList_node, List.mem_append, List.mem_cons]
      cases hc : cmp key k with
      | lt =>
          simp only [hc, List.mem_append, List.mem_cons] at he
          exact he.imp_left ihl
      | gt =>
          simp only [hc] at he
          exact .inr (.inr (ihr he))
      | eq =>
          simp only [hc, List.mem_cons] at he
          exact .inr he

theorem mem_of_mem_avlModify {f : β → β} {e : κ × β} (he : e ∈ (avlModify cmp key f t).toList) :
    e ∈ t.toList ∨ ∃ v, (e.1, v) ∈ t.toList ∧ f v = e.2 := by
  induction t with
  | nil => cases he
  | node l k v r height ihl ihr =>
      simp only [AvlTree.toList_node, List.mem_append, List.mem_cons]
      rw [avlModify] at he
      cases hc : cmp key k with
      | lt =>
          simp only [hc, AvlTree.toList_node, List.mem_append, List.mem_cons] at he
          rcases he with he | he
          · exact (ihl he).imp .inl (Exists.imp fun v hv => ⟨.inl hv.1, hv.2⟩)
          · exact .inl (.inr he)
      | gt =>
          simp only [hc, AvlTree.toList_node, List.mem_append, List.mem_cons] at he
          rcases he with he | he | he
          · exact .inl (.inl he)
          · exact .inl (.inr (.inl he))
          · exact (ihr he).imp (fun he => .inr (.inr he))
              (Exists.imp fun v hv => ⟨.inr (.inr hv.1), hv.2⟩)
      | eq =>
          simp only [hc, AvlTree.toList_node, List.mem_append, List.mem_cons] at he
          rcases he with he | rfl | he
          · exact .inl (.inl he)
          · exact .inr ⟨v, .inr (.inl rfl), rfl⟩
          · exact .inl (.inr (.inr he))

theorem mem_of_mem_avlNode {e : κ × β} (he : e ∈ (avlNode cmp key t).toList) : e ∈ t.toList := by
  induction t with
  | nil => exact he
  | node l k v r height ihl ihr =>
      rw [avlNode] at he
      rw [AvlTree.toList_node, List.mem_append, List.mem_cons]
      cases hc : cmp key k with
      | lt =>
          rw [hc] at he
          exact .inl (ihl he)
      | gt =>
          rw [hc] at he
          exact .inr (.inr (ihr he))
      | eq =>
          rw [hc] at he
          simpa only [AvlTree.toList_node, List.mem_append, List.mem_cons] using he

theorem AvlTree.mem_of_mem_right {e : κ × β} (he : e ∈ t.right.toList) : e ∈ t.toList := by
  cases t with
  | nil => exact he
  | node l k v r h => exact List.mem_append_right _ (List.mem_cons_of_mem _ he)

theorem AvlTree.KeysIn.remove (ht : t.KeysIn S) : (avlRemove cmp key t).KeysIn S :=
  fun e he => ht e (mem_of_mem_avlRemove he)

theorem AvlTree.KeysIn.modify (ht : t.KeysIn S) (f : β → β) :
    (avlModify cmp key f t).KeysIn S := by
  intro e he
  have hkey : e.1 ∈ (avlModify cmp key f t).toList.map Prod.fst := List.mem_map_of_mem he
  rw [keys_avlModify] at hkey
  obtain ⟨e', he', heq⟩ := List.mem_map.mp hkey
  exact heq ▸ ht e' he'

end Keys

end WebcomSdk.Collection

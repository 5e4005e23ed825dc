import Mathlib.Data.Set.Card
import WebcomSdk.Collection.AvlMap

/-!
The tree as a set of entries keyed by the comparator. The abstract set says what
each call does and returns, whatever the shape of the tree; every sequence of
calls on the tree is one on the set.
-/

namespace WebcomSdk.Collection

open AvlTree Std

/-- `struct avl`, without the functions that copy and free the data. While the tree
has fewer than 2^32 nodes, `count` is the `unsigned` of the source. -/
structure Avl (κ β : Type) where
  root : AvlTree κ β
  count : ℕ
  deriving Repr, DecidableEq

inductive AvlCall (κ β : Type) where
  | insert (key : κ) (val : β)
  | remove (key : κ)
  | get (key : κ)
  | count
  | removeAll
  deriving Repr, DecidableEq

/-- What a call returns: whether `avl_insert` returned a node, what `avl_get`
found, what `avl_count` counted. -/
inductive AvlResult (κ β : Type) where
  | inserted (ok : Bool)
  | found (entry : Option (κ × β))
  | number (n : ℕ)
  | done
  deriving Repr, DecidableEq

variable {κ β : Type}

def avlNew : Avl κ β := ⟨.nil, 0⟩

section Functions

variable (cmp : κ → κ → Ordering)

def Avl.call (avl : Avl κ β) : AvlCall κ β → Avl κ β × AvlResult κ β
  | .insert key val =>
      match avlInsert cmp key val avl.root with
      | some root => (⟨root, avl.count + 1⟩, .inserted true)
      | none => (avl, .inserted false)
  | .remove key =>
      let (root, found) := avlRemoveRec cmp key avl.root
      (⟨root, if found then avl.count - 1 else avl.count⟩, .done)
  | .get key => (avl, .found (avlGet cmp key avl.root))
  | .count => (avl, .number avl.count)
  | .removeAll => (avlNew, .done)

/-- A sequence of calls, with what each of them returned. -/
def Avl.run (avl : Avl κ β) : List (AvlCall κ β) → Avl κ β × List (AvlCall κ β × AvlResult κ β)
  | [] => (avl, [])
  | c :: calls =>
      let (avl, result) := avl.call cmp c
      let (avl, trace) := avl.run calls
      (avl, (c, result) :: trace)

/-- One call on a set of entries, with at most one entry for each key. -/
def SetCall (s : Set (κ × β)) : AvlCall κ β → AvlResult κ β → Set (κ × β) → Prop
  | .insert key val, .inserted ok, s' =>
      (ok = true ↔ ∀ e ∈ s, cmp key e.1 ≠ .eq) ∧ s' = if ok then insert (key, val) s else s
  | .remove key, .done, s' => s' = {e ∈ s | cmp key e.1 ≠ .eq}
  | .get key, .found entry, s' => (∀ e, entry = some e ↔ e ∈ s ∧ cmp key e.1 = .eq) ∧ s' = s
  | .count, .number n, s' => s.Finite ∧ n = s.ncard ∧ s' = s
  | .removeAll, .done, s' => s' = ∅
  | _, _, _ => False

/-- A sequence of calls on a set of entries. -/
inductive SetRun : Set (κ × β) → List (AvlCall κ β × AvlResult κ β) → Set (κ × β) → Prop
  | nil (s : Set (κ × β)) : SetRun s [] s
  | cons {s s' s'' : Set (κ × β)} {c : AvlCall κ β} {result : AvlResult κ β}
      {trace : List (AvlCall κ β × AvlResult κ β)} (hcall : SetCall cmp s c result s')
      (hrun : SetRun s' trace s'') : SetRun s ((c, result) :: trace) s''

/-- The tree is a search tree and its counter counts. -/
structure Avl.Good (avl : Avl κ β) : Prop where
  ordered : avl.root.Ordered cmp
  count : avl.count = avl.root.toList.length

end Functions

def Avl.entries (avl : Avl κ β) : Set (κ × β) := {e | e ∈ avl.root.toList}

variable {cmp : κ → κ → Ordering} {avl : Avl κ β}

/-! ### Counting -/

theorem length_avlInsertRec (key : κ) (val : β) (t : AvlTree κ β) :
    (avlInsertRec cmp key val t).toList.length = t.toList.length + 1 := by
  induction t with
  | nil => rfl
  | node l k v r h ihl ihr =>
      rw [avlInsertRec]
      split
      · rw [toList_avlBalance, toList_node, toList_node, List.length_append, ihl]
        simp only [List.length_append, List.length_cons]
        omega
      · rw [toList_avlBalance, toList_node, toList_node, List.length_append, List.length_cons, ihr]
        simp only [List.length_append, List.length_cons]
        omega

theorem toList_rebalanced (found : Bool) (t : AvlTree κ β) :
    (if found then avlBalance t else t).toList = t.toList := by
  split
  · exact toList_avlBalance t
  · rfl

theorem length_avlRemoveRec (key : κ) (t : AvlTree κ β) :
    t.toList.length = (avlRemoveRec cmp key t).1.toList.length +
      if (avlRemoveRec cmp key t).2 then 1 else 0 := by
  induction t with
  | nil => rfl
  | node l k v r h ihl ihr =>
      rw [avlRemoveRec, toList_node, List.length_append, List.length_cons]
      cases cmp key k with
      | eq =>
          simp only [toList_avlMovr, List.length_append, if_true]
          omega
      | lt =>
          simp only [toList_rebalanced, toList_node, List.length_append, List.length_cons]
          omega
      | gt =>
          simp only [toList_rebalanced, toList_node, List.length_append, List.length_cons]
          omega

/-- The key is found below exactly when it is there. -/
theorem found_avlRemoveRec (key : κ) (t : AvlTree κ β) :
    (avlRemoveRec cmp key t).2 = (avlGet cmp key t).isSome := by
  induction t with
  | nil => rfl
  | node l k v r h ihl ihr =>
      rw [avlRemoveRec, avlGet]
      cases cmp key k with
      | lt => exact ihl
      | gt => exact ihr
      | eq => rfl

theorem avlRemove_of_get_none {key : κ} {t : AvlTree κ β} (h : avlGet cmp key t = none) :
    avlRemove cmp key t = t := by
  rw [avlRemove]
  induction t with
  | nil => rfl
  | node l k v r height ihl ihr =>
      rw [avlRemoveRec]
      rw [avlGet] at h
      cases hc : cmp key k with
      | lt =>
          rw [hc] at h
          simp only [found_avlRemoveRec, h, ihl h]
          rfl
      | gt =>
          rw [hc] at h
          simp only [found_avlRemoveRec, h, ihr h]
          rfl
      | eq =>
          rw [hc] at h
          cases h

/-! ### One call -/

section Call

variable [TransCmp cmp]

theorem nodup_toList {t : AvlTree κ β} (ht : t.Ordered cmp) : t.toList.Nodup := by
  refine List.Pairwise.imp (fun {a b} hlt heq => ?_) ht
  have hself : cmp a.1 a.1 = .eq := ReflCmp.compare_self
  rw [← heq, hself] at hlt
  cases hlt

theorem ncard_entries (h : avl.Good cmp) : avl.entries.Finite ∧ avl.entries.ncard = avl.count := by
  classical
  have hset : avl.entries = ↑avl.root.toList.toFinset := by
    ext e
    simp [Avl.entries]
  rw [hset, Set.ncard_coe_finset, List.toFinset_card_of_nodup (nodup_toList h.ordered), h.count]
  exact ⟨Finset.finite_toSet _, rfl⟩

omit [TransCmp cmp] in
theorem good_avlNew : (avlNew : Avl κ β).Good cmp := ⟨ordered_nil, rfl⟩

theorem call_insert (h : avl.Good cmp) (key : κ) (val : β) :
    SetCall cmp avl.entries (.insert key val) (avl.call cmp (.insert key val)).2
        (avl.call cmp (.insert key val)).1.entries ∧
      (avl.call cmp (.insert key val)).1.Good cmp := by
  rw [Avl.call, avlInsert]
  cases hget : avlGet cmp key avl.root with
  | some e =>
      obtain ⟨hmem, heq⟩ := (avlGet_eq_some_iff h.ordered).mp hget
      refine ⟨⟨⟨fun hnew => absurd hnew (by simp), fun hnone => ?_⟩, rfl⟩, h⟩
      exact absurd heq (hnone e hmem)
  | none =>
      have hnone := (avlGet_eq_none_iff h.ordered).mp hget
      refine ⟨⟨⟨fun _ => hnone, fun _ => rfl⟩, ?_⟩, ordered_avlInsertRec h.ordered val hget, ?_⟩
      · ext e
        exact mem_avlInsertRec key val avl.root
      · rw [length_avlInsertRec, h.count]

theorem call_remove (h : avl.Good cmp) (key : κ) :
    SetCall cmp avl.entries (.remove key) (avl.call cmp (.remove key)).2
        (avl.call cmp (.remove key)).1.entries ∧
      (avl.call cmp (.remove key)).1.Good cmp := by
  refine ⟨?_, ordered_avlRemove h.ordered key, ?_⟩
  · show (avl.call cmp (.remove key)).1.entries = _
    ext e
    show e ∈ (avlRemove cmp key avl.root).toList ↔ _
    rw [toList_avlRemove h.ordered, List.mem_filter]
    simp [Avl.entries]
  · have hlen : avl.root.toList.length = (avlRemoveRec cmp key avl.root).1.toList.length + _ :=
      length_avlRemoveRec key avl.root
    show (if (avlRemoveRec cmp key avl.root).2 then _ else _) =
      (avlRemoveRec cmp key avl.root).1.toList.length
    rw [h.count, hlen]
    split <;> simp

/-- **One call** keeps the tree good, and does to its entries what it does to a
set. -/
theorem call_spec (h : avl.Good cmp) (c : AvlCall κ β) :
    SetCall cmp avl.entries c (avl.call cmp c).2 (avl.call cmp c).1.entries ∧
      (avl.call cmp c).1.Good cmp := by
  cases c with
  | insert key val => exact call_insert h key val
  | remove key => exact call_remove h key
  | get key =>
      refine ⟨⟨fun e => ?_, rfl⟩, h⟩
      exact avlGet_eq_some_iff h.ordered
  | count =>
      obtain ⟨hfinite, hcard⟩ := ncard_entries h
      exact ⟨⟨hfinite, hcard.symm, rfl⟩, h⟩
  | removeAll =>
      refine ⟨?_, good_avlNew⟩
      show (avlNew : Avl κ β).entries = ∅
      ext e
      simp [Avl.entries, avlNew]

/-! ### Runs -/

theorem run_spec (h : avl.Good cmp) (calls : List (AvlCall κ β)) :
    SetRun cmp avl.entries (avl.run cmp calls).2 (avl.run cmp calls).1.entries ∧
      (avl.run cmp calls).1.Good cmp := by
  induction calls generalizing avl with
  | nil => exact ⟨.nil _, h⟩
  | cons c calls ih =>
      obtain ⟨hcall, hgood⟩ := call_spec h c
      obtain ⟨hrun, hgood'⟩ := ih hgood
      exact ⟨.cons hcall hrun, hgood'⟩

/-- **The tree is a set of entries.** Every sequence of calls on an empty tree
returns what it returns on the empty set and ends with the same entries, which
an in-order walk meets in strictly increasing order. -/
theorem avl_refines_set (calls : List (AvlCall κ β)) :
    SetRun cmp ∅ ((avlNew : Avl κ β).run cmp calls).2 ((avlNew : Avl κ β).run cmp calls).1.entries ∧
      ((avlNew : Avl κ β).run cmp calls).2.map Prod.fst = calls ∧
      ((avlNew : Avl κ β).run cmp calls).1.root.toList.Pairwise fun a b => cmp a.1 b.1 = .lt := by
  have hempty : (avlNew : Avl κ β).entries = ∅ := by
    ext e
    simp [Avl.entries, avlNew]
  have hcalls : ∀ (avl : Avl κ β), (avl.run cmp calls).2.map Prod.fst = calls := by
    induction calls with
    | nil => exact fun _ => rfl
    | cons c calls ih => exact fun avl => congrArg (c :: ·) (ih _)
  have hnew : (avlNew : Avl κ β).Good cmp := good_avlNew
  obtain ⟨hrun, hgood⟩ := run_spec hnew calls
  rw [hempty] at hrun
  exact ⟨hrun, hcalls _, hgood.ordered⟩

/-- A refused insertion, a removal and a new count. -/
theorem avl_refines_set_five_calls :
    SetRun compare ∅ ((avlNew : Avl ℕ Unit).run compare
        [.insert 2 (), .insert 1 (), .insert 2 (), .remove 2, .count]).2
      ((avlNew : Avl ℕ Unit).run compare
        [.insert 2 (), .insert 1 (), .insert 2 (), .remove 2, .count]).1.entries ∧
      ((avlNew : Avl ℕ Unit).run compare
        [.insert 2 (), .insert 1 (), .insert 2 (), .remove 2, .count]).2 =
        [(.insert 2 (), .inserted true), (.insert 1 (), .inserted true),
          (.insert 2 (), .inserted false), (.remove 2, .done), (.count, .number 1)] :=
  ⟨(avl_refines_set _).1, rfl⟩

end Call

end WebcomSdk.Collection

import WebcomSdk.Collection.AvlMap
import WebcomSdk.Datasync.Path

/-!
AVL trees keyed by paths, as the listen registry and the on registry keep them.
A walk that starts at a path and stops at the first entry that does not start
with it visits exactly the entries at and below that path.
-/

namespace WebcomSdk.Datasync

open WebcomSdk.Lib WebcomSdk.Collection Std

variable {β : Type} {keyCmp : Key → Key → Ordering}

/-- The loop `avl_it_start_at(path)`, then `avl_it_next` while the entry starts
with `path`. -/
def walkBelow (keyCmp : Key → Key → Ordering) (path : Path) (t : AvlTree Path β) :
    List (Path × β) :=
  (avlFrom (wcDatasyncPathCmp keyCmp) path t).takeWhile fun e => wcDatasyncPathStartsWith e.1 path

/-- The same loop after one `avl_it_next` that skips the entry of `path`. -/
def walkStrictlyBelow (keyCmp : Key → Key → Ordering) (path : Path) (t : AvlTree Path β) :
    List (Path × β) :=
  ((avlFrom (wcDatasyncPathCmp keyCmp) path t).drop 1).takeWhile fun e =>
    wcDatasyncPathStartsWith e.1 path

/-- A path is never above what starts with it. -/
theorem pathCmp_ne_gt_of_prefix [ReflCmp keyCmp] {p q : Path} (h : p <+: q) :
    wcDatasyncPathCmp keyCmp p q ≠ .gt := by
  rw [wcDatasyncPathCmp_eq]
  exact compareLex_of_prefix h

variable [TransCmp keyCmp] {t : AvlTree Path β} {path : Path}

theorem sublist_walkBelow (ht : t.Ordered (wcDatasyncPathCmp keyCmp)) :
    (walkBelow keyCmp path t).Sublist t.toList := by
  rw [walkBelow, avlFrom_eq_filter ht]
  exact (List.takeWhile_sublist _).trans List.filter_sublist

theorem sublist_walkStrictlyBelow (ht : t.Ordered (wcDatasyncPathCmp keyCmp)) :
    (walkStrictlyBelow keyCmp path t).Sublist t.toList := by
  rw [walkStrictlyBelow, avlFrom_eq_filter ht]
  exact (List.takeWhile_sublist _).trans ((List.drop_sublist _ _).trans List.filter_sublist)

variable [LawfulEqCmp keyCmp]

theorem takeWhile_startsWith_eq_filter {l : List (Path × β)}
    (hsorted : l.Pairwise fun a b => wcDatasyncPathCmp keyCmp a.1 b.1 = .lt)
    (hstart : ∀ e ∈ l, wcDatasyncPathCmp keyCmp path e.1 ≠ .gt) :
    (l.takeWhile fun e => wcDatasyncPathStartsWith e.1 path) =
      l.filter fun e => wcDatasyncPathStartsWith e.1 path := by
  rw [wcDatasyncPathCmp_eq_compareLex] at hsorted hstart
  simp only [wcDatasyncPathStartsWith]
  exact takeWhile_prefix_eq_filter hsorted hstart

theorem mem_walkBelow (ht : t.Ordered (wcDatasyncPathCmp keyCmp)) {e : Path × β} :
    e ∈ walkBelow keyCmp path t ↔ e ∈ t.toList ∧ path <+: e.1 := by
  rw [walkBelow, avlFrom_eq_filter ht, takeWhile_startsWith_eq_filter (List.Pairwise.filter _ ht)
    (by simp)]
  simp only [List.mem_filter, bne_iff_ne, wcDatasyncPathStartsWith_iff]
  constructor
  · rintro ⟨⟨hmem, -⟩, hpre⟩
    exact ⟨hmem, hpre⟩
  · rintro ⟨hmem, hpre⟩
    exact ⟨⟨hmem, pathCmp_ne_gt_of_prefix hpre⟩, hpre⟩

theorem avlFrom_eq_cons (ht : t.Ordered (wcDatasyncPathCmp keyCmp)) {v : β}
    (hmem : (path, v) ∈ t.toList) :
    ∃ rest, avlFrom (wcDatasyncPathCmp keyCmp) path t = (path, v) :: rest ∧
      ∀ e ∈ rest, wcDatasyncPathCmp keyCmp path e.1 = .lt := by
  have hsorted : (avlFrom (wcDatasyncPathCmp keyCmp) path t).Pairwise
      fun a b => wcDatasyncPathCmp keyCmp a.1 b.1 = .lt := by
    rw [avlFrom_eq_filter ht]
    exact List.Pairwise.filter _ ht
  have hge : ∀ e ∈ avlFrom (wcDatasyncPathCmp keyCmp) path t,
      wcDatasyncPathCmp keyCmp path e.1 ≠ .gt := by
    rw [avlFrom_eq_filter ht]
    simp
  have hin : (path, v) ∈ avlFrom (wcDatasyncPathCmp keyCmp) path t := by
    rw [avlFrom_eq_filter ht]
    simp [hmem, ReflCmp.compare_self]
  cases hl : avlFrom (wcDatasyncPathCmp keyCmp) path t with
  | nil => simp [hl] at hin
  | cons e rest =>
      rw [hl] at hsorted hge hin
      obtain ⟨he, -⟩ := List.pairwise_cons.mp hsorted
      rcases List.mem_cons.mp hin with rfl | hrest
      · exact ⟨rest, rfl, he⟩
      · -- an entry before that of `path` would be below it
        have hlt := he _ hrest
        exact absurd (OrientedCmp.gt_of_lt hlt) (hge e List.mem_cons_self)

theorem mem_walkStrictlyBelow (ht : t.Ordered (wcDatasyncPathCmp keyCmp)) {v : β}
    (hmem : (path, v) ∈ t.toList) {e : Path × β} :
    e ∈ walkStrictlyBelow keyCmp path t ↔ e ∈ t.toList ∧ path <+: e.1 ∧ e.1 ≠ path := by
  obtain ⟨rest, hrest, hlt⟩ := avlFrom_eq_cons ht hmem
  have hsorted : ((path, v) :: rest).Pairwise
      fun a b => wcDatasyncPathCmp keyCmp a.1 b.1 = .lt := by
    rw [← hrest, avlFrom_eq_filter ht]
    exact List.Pairwise.filter _ ht
  have hall : ∀ e, e ∈ (path, v) :: rest ↔
      e ∈ t.toList ∧ wcDatasyncPathCmp keyCmp path e.1 ≠ .gt := by
    intro e
    rw [← hrest, avlFrom_eq_filter ht, List.mem_filter, bne_iff_ne]
  rw [walkStrictlyBelow, hrest, List.drop_one, List.tail_cons, takeWhile_startsWith_eq_filter
    (List.pairwise_cons.mp hsorted).2 fun e he => by simp [hlt e he]]
  simp only [List.mem_filter, wcDatasyncPathStartsWith_iff]
  constructor
  · rintro ⟨he, hpre⟩
    refine ⟨((hall e).mp (List.mem_cons_of_mem _ he)).1, hpre, ?_⟩
    rintro rfl
    simpa [ReflCmp.compare_self] using hlt e he
  · rintro ⟨he, hpre, hne⟩
    refine ⟨?_, hpre⟩
    rcases List.mem_cons.mp ((hall e).mpr ⟨he, pathCmp_ne_gt_of_prefix hpre⟩) with rfl | hin
    · exact absurd rfl hne
    · exact hin

end WebcomSdk.Datasync

import WebcomSdk.Collection.AvlAgree
import WebcomSdk.Datasync.PathTree

/-!
Trees keyed by paths, under comparators of keys that agree on the parts that
occur.
-/

namespace WebcomSdk.Datasync

open WebcomSdk.Collection

variable {S : Set Key} {cmp cmp' : Key → Key → Ordering} {β : Type}

/-- The parts of the path are in `S`. -/
def PathIn (S : Set Key) (path : Path) : Prop := ∀ part ∈ path, part ∈ S

theorem pathIn_cons {part : Key} {path : Path} :
    PathIn S (part :: path) ↔ part ∈ S ∧ PathIn S path := List.forall_mem_cons

theorem PathIn.take {path : Path} (h : PathIn S path) (n : ℕ) : PathIn S (path.take n) :=
  fun part hpart => h part (List.mem_of_mem_take hpart)

theorem agreeOn_pathCmp (hagree : AgreeOn S cmp cmp') :
    AgreeOn {p | PathIn S p} (wcDatasyncPathCmp cmp) (wcDatasyncPathCmp cmp') := by
  intro p hp q hq
  induction p generalizing q with
  | nil => cases q <;> rfl
  | cons x p ih =>
      cases q with
      | nil => rfl
      | cons y q =>
          obtain ⟨hx, hp⟩ := pathIn_cons.mp hp
          obtain ⟨hy, hq⟩ := pathIn_cons.mp hq
          rw [wcDatasyncPathCmp, wcDatasyncPathCmp, hagree x hx y hy, ih hp q hq]

/-- The paths in the tree have their parts in `S`. -/
abbrev PathsIn (S : Set Key) (t : AvlTree Path β) : Prop := t.KeysIn {p | PathIn S p}

variable {path : Path} {t : AvlTree Path β}

section Walks

variable (hagree : AgreeOn S cmp cmp') (hpath : PathIn S path) (ht : PathsIn S t)

include hagree hpath ht

theorem walkBelow_agree : walkBelow cmp path t = walkBelow cmp' path t ∧
    ∀ e ∈ walkBelow cmp path t, PathIn S e.1 := by
  constructor
  · rw [walkBelow, walkBelow, avlFrom_agree (agreeOn_pathCmp hagree) hpath ht]
  · exact fun e he => ht e (mem_of_mem_avlFrom ((List.takeWhile_sublist _).subset he))

theorem walkStrictlyBelow_agree : walkStrictlyBelow cmp path t = walkStrictlyBelow cmp' path t ∧
    ∀ e ∈ walkStrictlyBelow cmp path t, PathIn S e.1 := by
  constructor
  · rw [walkStrictlyBelow, walkStrictlyBelow,
      avlFrom_agree (agreeOn_pathCmp hagree) hpath ht]
  · exact fun e he =>
      ht e (mem_of_mem_avlFrom (List.mem_of_mem_drop ((List.takeWhile_sublist _).subset he)))

end Walks

end WebcomSdk.Datasync

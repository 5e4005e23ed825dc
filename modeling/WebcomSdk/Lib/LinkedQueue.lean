import Mathlib.Tactic

/-!
A queue in linked cells. `tail` is the place that the next cell will be linked
from: the head pointer, or the `next` field of a cell. A `next` field has no value
until it is written.
-/

namespace WebcomSdk.Lib

variable {α : Type*}

structure Cell (α : Type*) where
  data : α
  next : Option ℕ

/-- A place that holds a pointer to a cell. -/
inductive Slot where
  | head
  | next (cell : ℕ)
deriving DecidableEq

structure LinkedQueue (α : Type*) where
  heap : ℕ → Option (Cell α)
  head : Option ℕ
  tail : Slot

namespace LinkedQueue

def empty : LinkedQueue α := ⟨fun _ => none, none, .head⟩

def read (s : LinkedQueue α) : Slot → Option ℕ
  | .head => s.head
  | .next a => (s.heap a).bind Cell.next

/-- `*slot = a`. `none` says that the slot is in no cell. -/
def write (s : LinkedQueue α) (a : ℕ) : Slot → Option (LinkedQueue α)
  | .head => some { s with head := some a }
  | .next b => (s.heap b).map fun cell =>
      { s with heap := Function.update s.heap b (some { cell with next := some a }) }

/-- A new cell at `a`, linked from the tail. -/
def push (s : LinkedQueue α) (a : ℕ) (x : α) : Option (LinkedQueue α) :=
  (s.write a s.tail).map fun s =>
    { s with heap := Function.update s.heap a (some ⟨x, none⟩), tail := .next a }

/-- What the first cell holds. -/
def front (s : LinkedQueue α) : Option α := (s.head.bind s.heap).map Cell.data

/-- The first cell is freed. -/
def pop (s : LinkedQueue α) : Option (LinkedQueue α) :=
  s.head.bind fun a => (s.heap a).map fun cell =>
    { s with head := cell.next, heap := Function.update s.heap a none }

def resetTail (s : LinkedQueue α) : LinkedQueue α := { s with tail := .head }

def dataAt (s : LinkedQueue α) (a : ℕ) : Option α := (s.heap a).map Cell.data

/-- The cells that hang from `slot`, and the tail is where they end. -/
def LinkedFrom (s : LinkedQueue α) : Slot → List (ℕ × α) → Prop
  | slot, [] => s.tail = slot
  | slot, (a, x) :: cells =>
      s.read slot = some a ∧ s.dataAt a = some x ∧ LinkedFrom s (.next a) cells

/-- The slots in the cells. -/
def slots (cells : List (ℕ × α)) : List Slot := cells.map fun c => .next c.1

/-- The cells of the queue hold `q`. -/
def Holds (s : LinkedQueue α) (q : List α) : Prop :=
  ∃ cells : List (ℕ × α), cells.map Prod.snd = q ∧ (slots cells).Nodup ∧ s.LinkedFrom .head cells

variable {s s' : LinkedQueue α} {slot : Slot} {cells : List (ℕ × α)} {a : ℕ} {x y : α}
  {q : List α}

theorem holds_empty : (empty : LinkedQueue α).Holds [] := ⟨[], rfl, List.nodup_nil, rfl⟩

/-- Cells that are not in use may change, and the cells may hang from elsewhere. -/
theorem LinkedFrom.congr {slot' : Slot} (h : s.LinkedFrom slot cells) (htail : s'.tail = s.tail)
    (hslot : s'.read slot' = s.read slot) (hsame : cells = [] → slot' = slot)
    (hheap : ∀ c ∈ cells, s'.heap c.1 = s.heap c.1) : s'.LinkedFrom slot' cells := by
  induction cells generalizing slot slot' with
  | nil =>
      rw [hsame rfl]
      exact htail.trans h
  | cons cell cells ih =>
      rw [List.forall_mem_cons] at hheap
      obtain ⟨hread, hdata, hrest⟩ := h
      refine ⟨hslot.trans hread, ?_, ih hrest ?_ (fun _ => rfl) hheap.2⟩
      · rw [dataAt, hheap.1]
        exact hdata
      · simp only [read, hheap.1]

theorem LinkedFrom.tail_mem (h : s.LinkedFrom slot cells) :
    s.tail = slot ∨ s.tail ∈ slots cells := by
  induction cells generalizing slot with
  | nil => exact .inl h
  | cons cell cells ih =>
      rcases ih h.2.2 with htail | htail
      · exact .inr (htail ▸ List.mem_cons_self)
      · exact .inr (List.mem_cons_of_mem _ htail)

theorem LinkedFrom.isSome (h : s.LinkedFrom slot cells) :
    ∀ c ∈ cells, (s.heap c.1).isSome := by
  induction cells generalizing slot with
  | nil => exact List.forall_mem_nil _
  | cons cell cells ih =>
      rw [List.forall_mem_cons, ← Option.isSome_map]
      exact ⟨by rw [show (s.heap cell.1).map Cell.data = _ from h.2.1]; rfl, ih h.2.2⟩

/-- What `push` changes: the tail is read as the new cell. -/
theorem push_eq_some (hfree : s.heap a = none) (h : s.push a x = some s') :
    s'.read s.tail = some a ∧ s'.dataAt a = some x ∧ s'.tail = .next a ∧
      (∀ slot, slot ≠ s.tail → slot ≠ .next a → s'.read slot = s.read slot) ∧
      ∀ b, b ≠ a → s'.dataAt b = s.dataAt b := by
  obtain ⟨heap, head, tail⟩ := s
  obtain ⟨s₁, hwrite, rfl⟩ := Option.map_eq_some_iff.mp h
  cases tail with
  | head =>
      obtain rfl := Option.some.inj hwrite
      refine ⟨rfl, by simp [dataAt], rfl, fun slot htail hnew => ?_, fun b hb => ?_⟩
      · cases slot with
        | head => exact absurd rfl htail
        | next b =>
            have hb : b ≠ a := fun heq => hnew (heq ▸ rfl)
            simp [read, Function.update_of_ne hb]
      · simp [dataAt, Function.update_of_ne hb]
  | next t =>
      obtain ⟨cell, hcell, rfl⟩ := Option.map_eq_some_iff.mp hwrite
      have ht : t ≠ a := by
        rintro rfl
        rw [hfree] at hcell
        cases hcell
      refine ⟨by simp [read, Function.update_of_ne ht], by simp [dataAt], rfl,
        fun slot htail hnew => ?_, fun b hb => ?_⟩
      · cases slot with
        | head => rfl
        | next b =>
            have hb : b ≠ a := fun heq => hnew (heq ▸ rfl)
            have hbt : b ≠ t := fun heq => htail (heq ▸ rfl)
            simp [read, Function.update_of_ne hb, Function.update_of_ne hbt]
      · by_cases hbt : b = t
        · subst hbt
          have hheap : heap b = some cell := hcell
          simp [dataAt, Function.update_of_ne hb, hheap]
        · simp [dataAt, Function.update_of_ne hb, Function.update_of_ne hbt]

/-- What is free stays free, but for the new cell. -/
theorem push_free (h : s.push a x = some s') {b : ℕ} (hb : b ≠ a) (hfree : s.heap b = none) :
    s'.heap b = none := by
  obtain ⟨s₁, hwrite, rfl⟩ := Option.map_eq_some_iff.mp h
  show Function.update s₁.heap a _ b = none
  rw [Function.update_of_ne hb]
  cases htail : s.tail with
  | head =>
      rw [htail] at hwrite
      obtain rfl := Option.some.inj hwrite
      exact hfree
  | next t =>
      rw [htail] at hwrite
      obtain ⟨cell, hcell, rfl⟩ := Option.map_eq_some_iff.mp hwrite
      have hne : b ≠ t := by
        rintro rfl
        rw [hfree] at hcell
        cases hcell
      show Function.update s.heap t _ b = none
      rw [Function.update_of_ne hne, hfree]

theorem LinkedFrom.push (h : s.LinkedFrom slot cells) (hfree : s.heap a = none)
    (hpush : s.push a x = some s') (hnodup : (slots cells).Nodup) (hslot : slot ∉ slots cells)
    (hnew : slot ≠ .next a) : s'.LinkedFrom slot (cells ++ [(a, x)]) := by
  obtain ⟨htail, hdata, hend, hread, hdatas⟩ := push_eq_some hfree hpush
  induction cells generalizing slot with
  | nil =>
      obtain rfl : s.tail = slot := h
      exact ⟨htail, hdata, hend⟩
  | cons cell cells ih =>
      have hne : cell.1 ≠ a := by
        intro heq
        have hlive := h.isSome cell List.mem_cons_self
        rw [heq, hfree] at hlive
        cases hlive
      -- the tail is behind the slots on the way
      have hbefore : slot ≠ s.tail := by
        rcases h.2.2.tail_mem with hmem | hmem
        · exact fun heq => hslot (heq ▸ hmem ▸ List.mem_cons_self)
        · exact fun heq => hslot (heq ▸ List.mem_cons_of_mem _ hmem)
      rw [slots, List.map_cons, List.nodup_cons] at hnodup
      refine ⟨(hread slot hbefore hnew).trans h.1, (hdatas _ hne).trans h.2.1,
        ih h.2.2 hnodup.2 hnodup.1 fun heq => hne (Slot.next.inj heq)⟩

theorem Holds.front (h : s.Holds (x :: q)) : s.front = some x := by
  obtain ⟨cells, hcells, -, hlinked⟩ := h
  cases cells with
  | nil => cases hcells
  | cons cell cells =>
      obtain ⟨rfl, -⟩ := List.cons.inj hcells
      obtain ⟨hread, hdata, -⟩ := hlinked
      rw [LinkedQueue.front, show s.head = some cell.1 from hread]
      exact hdata

/-- **Pushing** puts the new value behind the others. -/
theorem Holds.push (h : s.Holds q) (hfree : s.heap a = none) (x : α) :
    ∃ s', s.push a x = some s' ∧ s'.Holds (q ++ [x]) := by
  obtain ⟨cells, rfl, hnodup, hlinked⟩ := h
  have hpush : ∃ s', s.push a x = some s' := by
    rcases hlinked.tail_mem with htail | htail
    · exact ⟨_, by rw [LinkedQueue.push, htail]; rfl⟩
    · obtain ⟨cell, hcell, htail⟩ := List.mem_map.mp htail
      obtain ⟨found, hfound⟩ := Option.isSome_iff_exists.mp (hlinked.isSome cell hcell)
      exact ⟨_, by rw [LinkedQueue.push, ← htail, write, hfound]; rfl⟩
  obtain ⟨s', hs'⟩ := hpush
  have hhead : Slot.head ∉ slots cells := by simp [slots]
  refine ⟨s', hs', cells ++ [(a, x)], by simp, ?_, hlinked.push hfree hs' hnodup hhead (by simp)⟩
  rw [slots, List.map_append, List.nodup_append]
  refine ⟨hnodup, by simp, ?_⟩
  rintro slot hslot slot' hslot' rfl
  obtain ⟨cell, hcell, rfl⟩ := List.mem_map.mp hslot
  have hlive := hlinked.isSome cell hcell
  rw [Slot.next.inj (List.mem_singleton.mp hslot'), hfree] at hlive
  cases hlive

/-- **Popping** frees the first cell. The tail must be reset after the last one, since it is
in the freed cell. -/
theorem Holds.pop (h : s.Holds (x :: q)) :
    ∃ s', s.pop = some s' ∧ (q ≠ [] → s'.Holds q) ∧ (q = [] → s'.resetTail.Holds []) := by
  obtain ⟨cells, hcells, hnodup, hlinked⟩ := h
  cases cells with
  | nil => cases hcells
  | cons first cells =>
      obtain ⟨-, rfl⟩ := List.cons.inj hcells
      obtain ⟨hread, -, hrest⟩ := id hlinked
      obtain ⟨cell, hcell⟩ := Option.isSome_iff_exists.mp
        (hlinked.isSome first List.mem_cons_self)
      rw [slots, List.map_cons, List.nodup_cons] at hnodup
      have hpop : s.pop = some { s with
          head := cell.next, heap := Function.update s.heap first.1 none } := by
        rw [LinkedQueue.pop, show s.head = some first.1 from hread, Option.bind_some, hcell]
        rfl
      refine ⟨_, hpop, fun hne => ⟨cells, rfl, hnodup.2, hrest.congr rfl ?_ ?_ ?_⟩,
        fun _ => ⟨[], rfl, List.nodup_nil, rfl⟩⟩
      · simp [read, hcell]
      · intro hnil
        exact absurd (hnil ▸ rfl) hne
      · intro c hc
        apply Function.update_of_ne
        intro heq
        exact hnodup.1 (List.mem_map.mpr ⟨c, hc, by rw [heq]⟩)

end LinkedQueue

end WebcomSdk.Lib

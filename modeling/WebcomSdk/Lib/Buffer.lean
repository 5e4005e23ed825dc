import Mathlib.Tactic

/-!
Printing into a buffer of fixed size, in which a write outside the buffer is an
error. A printer emits a text when it puts it in place wherever there is room
for the text and one element more. What it leaves in that one element is not
said: the next piece overwrites it, and the last piece is a terminator.
-/

namespace WebcomSdk.Lib

/-- A buffer and the position of the next write. -/
structure Out (α : Type*) where
  buf : List α
  pos : ℕ

/-- A piece of a printer; `none` is a write outside the buffer. -/
abbrev Printer (α : Type*) := Out α → Option (Out α)

variable {α : Type*}

/-- `*p++ = c`. -/
def putc (c : α) : Printer α := fun w =>
  if w.pos < w.buf.length then some ⟨w.buf.set w.pos c, w.pos + 1⟩ else none

/-- `*p = c`. -/
def putHere (c : α) : Printer α := fun w =>
  if w.pos < w.buf.length then some ⟨w.buf.set w.pos c, w.pos⟩ else none

def puts : List α → Printer α
  | [] => some
  | c :: text => putc c >=> puts text

/-- The text stands between the two positions, what was before it is kept, and
so is what comes after the next element. -/
structure Written (text : List α) (w w' : Out α) : Prop where
  pos : w'.pos = w.pos + text.length
  length : w'.buf.length = w.buf.length
  before : w'.buf.take w'.pos = w.buf.take w.pos ++ text
  after : w'.buf.drop (w'.pos + 1) = w.buf.drop (w'.pos + 1)

def Emits (print : Printer α) (text : List α) : Prop :=
  ∀ w, w.pos + text.length < w.buf.length → ∃ w', print w = some w' ∧ Written text w w'

theorem Written.refl (w : Out α) : Written [] w w where
  pos := rfl
  length := rfl
  before := by simp
  after := rfl

theorem Written.trans {s t : List α} {w w' w'' : Out α} (hs : Written s w w')
    (ht : Written t w' w'') : Written (s ++ t) w w'' where
  pos := by rw [ht.pos, hs.pos, List.length_append, Nat.add_assoc]
  length := ht.length.trans hs.length
  before := by rw [ht.before, hs.before, List.append_assoc]
  after := by
    have hskip : w''.pos + 1 = w'.pos + 1 + t.length := by
      rw [ht.pos]
      omega
    calc w''.buf.drop (w''.pos + 1)
        = (w'.buf.drop (w'.pos + 1)).drop t.length := by rw [ht.after, List.drop_drop, hskip]
      _ = w.buf.drop (w''.pos + 1) := by rw [hs.after, List.drop_drop, hskip]

theorem emits_nil : Emits (some : Printer α) [] := by
  intro w _
  exact ⟨w, rfl, .refl w⟩

theorem emits_putc (c : α) : Emits (putc c) [c] := by
  intro w hroom
  have hin : w.pos < w.buf.length := by
    simp only [List.length_singleton] at hroom
    omega
  refine ⟨_, if_pos hin, rfl, by simp, ?_, ?_⟩
  · show (w.buf.set w.pos c).take (w.pos + 1) = w.buf.take w.pos ++ [c]
    rw [List.take_set, List.take_add_one, List.getElem?_eq_getElem hin, List.set_append_right]
    · simp [Nat.min_eq_left hin.le]
    · simp
  · exact List.drop_set_of_lt (by simp)

theorem emits_putHere (c : α) : Emits (putHere c) [] := by
  intro w hroom
  have hin : w.pos < w.buf.length := hroom
  refine ⟨_, if_pos hin, rfl, by simp, ?_, ?_⟩
  · show (w.buf.set w.pos c).take w.pos = w.buf.take w.pos ++ []
    rw [List.take_set_of_le le_rfl, List.append_nil]
  · exact List.drop_set_of_lt (by simp)

/-- One text or the other, as one printer or the other is used. -/
theorem Emits.ite {p : Prop} [Decidable p] {f g : Printer α} {s t : List α} (hf : Emits f s)
    (hg : Emits g t) : Emits (if p then f else g) (if p then s else t) := by
  split
  · exact hf
  · exact hg

/-- **Pieces one after the other.** -/
theorem Emits.comp {f g : Printer α} {s t : List α} (hf : Emits f s) (hg : Emits g t) :
    Emits (f >=> g) (s ++ t) := by
  intro w hroom
  rw [List.length_append] at hroom
  obtain ⟨w', hw', hs⟩ := hf w (by omega)
  obtain ⟨w'', hw'', ht⟩ := hg w' (by rw [hs.pos, hs.length]; omega)
  refine ⟨w'', ?_, hs.trans ht⟩
  rw [Bind.kleisliRight, hw', ← hw'']
  rfl

theorem emits_puts (text : List α) : Emits (puts text) text := by
  induction text with
  | nil => exact emits_nil
  | cons c text ih => exact (emits_putc c).comp ih

/-- A piece that ends with a terminator of its own, which the next piece
overwrites. -/
theorem Emits.terminated {f : Printer α} {s : List α} (hf : Emits f s) (c : α) :
    Emits (f >=> putHere c) s := by
  have h := hf.comp (emits_putHere c)
  rwa [List.append_nil] at h

/-- **A terminated text.** Where there is room for it, the buffer then holds
the text and its terminator and is otherwise as before. -/
theorem Emits.print_terminated {f : Printer α} {text : List α} (hf : Emits f text) (c : α)
    {w : Out α} (hroom : w.pos + text.length < w.buf.length) :
    (f >=> putHere c) w =
      some ⟨w.buf.take w.pos ++ text ++ c :: w.buf.drop (w.pos + text.length + 1),
        w.pos + text.length⟩ := by
  obtain ⟨w', hw', hwritten⟩ := hf w hroom
  have hin : w'.pos < w'.buf.length := by rwa [hwritten.pos, hwritten.length]
  have hset : w'.buf.set w'.pos c = w'.buf.take w'.pos ++ c :: w'.buf.drop (w'.pos + 1) := by
    rw [List.set_eq_take_append_cons_drop, if_pos hin]
  rw [hwritten.before, hwritten.after, hwritten.pos] at hset
  rw [Bind.kleisliRight, hw']
  show putHere c w' = _
  rw [putHere, if_pos hin, hwritten.pos, hset]

end WebcomSdk.Lib

import Mathlib.Tactic
import WebcomSdk.Lib.Sha1

/-!
`wc_SHA1Transform` of `lib/sha1.c`: eighty unrolled operations on five variables
that change places, over a block of sixteen words that is overwritten as the
schedule goes on.
-/

namespace WebcomSdk.Hash

open WebcomSdk.Lib.Sha1

/-- `BYTE_ORDER`. -/
inductive ByteOrder
  | little
  | big

def rol (value bits : UInt32) : UInt32 := (value <<< bits) ||| (value >>> (32 - bits))

/-- The words `l` of a `CHAR64LONG16`. -/
abbrev Block := Vector UInt32 16

/-- Four bytes in memory, read as a `uint32_t`. -/
def hostWord : ByteOrder → UInt8 → UInt8 → UInt8 → UInt8 → UInt32
  | .little, b₀, b₁, b₂, b₃ => wordOf b₃ b₂ b₁ b₀
  | .big, b₀, b₁, b₂, b₃ => wordOf b₀ b₁ b₂ b₃

/-- `memcpy(block, buffer, 64)`. -/
def loadBlock (order : ByteOrder) (buffer : List UInt8) : Block :=
  Vector.ofFn fun i => hostWord order (buffer.getD (4 * i) 0) (buffer.getD (4 * i + 1) 0)
    (buffer.getD (4 * i + 2) 0) (buffer.getD (4 * i + 3) 0)

/-- The word `i & 15` of a block. -/
def Block.at (l : Block) (i : ℕ) : UInt32 := l[i % 16]

def Block.put (l : Block) (i : ℕ) (x : UInt32) : Block := l.set (i % 16) x

/-- `blk0(i)`: its value, and the block it leaves. -/
def blk0 (order : ByteOrder) (l : Block) (i : ℕ) : UInt32 × Block :=
  match order with
  | .little =>
      let x := (rol (l.at i) 24 &&& 0xFF00FF00) ||| (rol (l.at i) 8 &&& 0x00FF00FF)
      (x, l.put i x)
  | .big => (l.at i, l)

/-- `blk(i)`. -/
def blk (l : Block) (i : ℕ) : UInt32 × Block :=
  let x := rol (l.at (i + 13) ^^^ l.at (i + 8) ^^^ l.at (i + 2) ^^^ l.at i) 1
  (x, l.put i x)

/-- The variables of the function. -/
inductive Var
  | a | b | c | d | e
deriving DecidableEq

/-- `state[5]`, and the variables that start from it. -/
abbrev State := Chain

def State.get (s : State) : Var → UInt32
  | .a => s.a
  | .b => s.b
  | .c => s.c
  | .d => s.d
  | .e => s.e

def State.set (s : State) (v : Var) (x : UInt32) : State :=
  match v with
  | .a => { s with a := x }
  | .b => { s with b := x }
  | .c => { s with c := x }
  | .d => { s with d := x }
  | .e => { s with e := x }

structure Working where
  vars : State
  block : Block

/-- `z+=F(w,x,y)+blk(i)+k+rol(v,5);w=rol(w,30);`, the common shape of the macros. -/
def operation (f : UInt32 → UInt32 → UInt32 → UInt32) (k : UInt32)
    (expand : Block → ℕ → UInt32 × Block) (v w x y z : Var) (i : ℕ) (s : Working) : Working :=
  let (word, block) := expand s.block i
  let vars := s.vars.set z (s.vars.get z +
    (f (s.vars.get w) (s.vars.get x) (s.vars.get y) + word + k + rol (s.vars.get v) 5))
  { vars := vars.set w (rol (vars.get w) 30), block := block }

section Macros

variable (order : ByteOrder)

def R0 := operation (fun w x y => (w &&& (x ^^^ y)) ^^^ y) 0x5A827999 (blk0 order)

def R1 := operation (fun w x y => (w &&& (x ^^^ y)) ^^^ y) 0x5A827999 blk

def R2 := operation (fun w x y => w ^^^ x ^^^ y) 0x6ED9EBA1 blk

def R3 := operation (fun w x y => ((w ||| x) &&& y) ||| (w &&& x)) 0x8F1BBCDC blk

def R4 := operation (fun w x y => w ^^^ x ^^^ y) 0xCA62C1D6 blk

inductive Macro
  | r0 | r1 | r2 | r3 | r4
deriving DecidableEq

/-- A macro with its arguments. -/
structure Call where
  macroName : Macro
  v : Var
  w : Var
  x : Var
  y : Var
  z : Var
  i : ℕ
deriving DecidableEq

def Call.run (call : Call) : Working → Working :=
  match call.macroName with
  | .r0 => R0 order call.v call.w call.x call.y call.z call.i
  | .r1 => R1 call.v call.w call.x call.y call.z call.i
  | .r2 => R2 call.v call.w call.x call.y call.z call.i
  | .r3 => R3 call.v call.w call.x call.y call.z call.i
  | .r4 => R4 call.v call.w call.x call.y call.z call.i

open Macro Var in
/-- The body of the function, "4 rounds of 20 operations each". -/
def unrolled : List Call :=
  [⟨r0, a, b, c, d, e, 0⟩, ⟨r0, e, a, b, c, d, 1⟩, ⟨r0, d, e, a, b, c, 2⟩,
    ⟨r0, c, d, e, a, b, 3⟩, ⟨r0, b, c, d, e, a, 4⟩, ⟨r0, a, b, c, d, e, 5⟩,
    ⟨r0, e, a, b, c, d, 6⟩, ⟨r0, d, e, a, b, c, 7⟩, ⟨r0, c, d, e, a, b, 8⟩,
    ⟨r0, b, c, d, e, a, 9⟩, ⟨r0, a, b, c, d, e, 10⟩, ⟨r0, e, a, b, c, d, 11⟩,
    ⟨r0, d, e, a, b, c, 12⟩, ⟨r0, c, d, e, a, b, 13⟩, ⟨r0, b, c, d, e, a, 14⟩,
    ⟨r0, a, b, c, d, e, 15⟩, ⟨r1, e, a, b, c, d, 16⟩, ⟨r1, d, e, a, b, c, 17⟩,
    ⟨r1, c, d, e, a, b, 18⟩, ⟨r1, b, c, d, e, a, 19⟩, ⟨r2, a, b, c, d, e, 20⟩,
    ⟨r2, e, a, b, c, d, 21⟩, ⟨r2, d, e, a, b, c, 22⟩, ⟨r2, c, d, e, a, b, 23⟩,
    ⟨r2, b, c, d, e, a, 24⟩, ⟨r2, a, b, c, d, e, 25⟩, ⟨r2, e, a, b, c, d, 26⟩,
    ⟨r2, d, e, a, b, c, 27⟩, ⟨r2, c, d, e, a, b, 28⟩, ⟨r2, b, c, d, e, a, 29⟩,
    ⟨r2, a, b, c, d, e, 30⟩, ⟨r2, e, a, b, c, d, 31⟩, ⟨r2, d, e, a, b, c, 32⟩,
    ⟨r2, c, d, e, a, b, 33⟩, ⟨r2, b, c, d, e, a, 34⟩, ⟨r2, a, b, c, d, e, 35⟩,
    ⟨r2, e, a, b, c, d, 36⟩, ⟨r2, d, e, a, b, c, 37⟩, ⟨r2, c, d, e, a, b, 38⟩,
    ⟨r2, b, c, d, e, a, 39⟩, ⟨r3, a, b, c, d, e, 40⟩, ⟨r3, e, a, b, c, d, 41⟩,
    ⟨r3, d, e, a, b, c, 42⟩, ⟨r3, c, d, e, a, b, 43⟩, ⟨r3, b, c, d, e, a, 44⟩,
    ⟨r3, a, b, c, d, e, 45⟩, ⟨r3, e, a, b, c, d, 46⟩, ⟨r3, d, e, a, b, c, 47⟩,
    ⟨r3, c, d, e, a, b, 48⟩, ⟨r3, b, c, d, e, a, 49⟩, ⟨r3, a, b, c, d, e, 50⟩,
    ⟨r3, e, a, b, c, d, 51⟩, ⟨r3, d, e, a, b, c, 52⟩, ⟨r3, c, d, e, a, b, 53⟩,
    ⟨r3, b, c, d, e, a, 54⟩, ⟨r3, a, b, c, d, e, 55⟩, ⟨r3, e, a, b, c, d, 56⟩,
    ⟨r3, d, e, a, b, c, 57⟩, ⟨r3, c, d, e, a, b, 58⟩, ⟨r3, b, c, d, e, a, 59⟩,
    ⟨r4, a, b, c, d, e, 60⟩, ⟨r4, e, a, b, c, d, 61⟩, ⟨r4, d, e, a, b, c, 62⟩,
    ⟨r4, c, d, e, a, b, 63⟩, ⟨r4, b, c, d, e, a, 64⟩, ⟨r4, a, b, c, d, e, 65⟩,
    ⟨r4, e, a, b, c, d, 66⟩, ⟨r4, d, e, a, b, c, 67⟩, ⟨r4, c, d, e, a, b, 68⟩,
    ⟨r4, b, c, d, e, a, 69⟩, ⟨r4, a, b, c, d, e, 70⟩, ⟨r4, e, a, b, c, d, 71⟩,
    ⟨r4, d, e, a, b, c, 72⟩, ⟨r4, c, d, e, a, b, 73⟩, ⟨r4, b, c, d, e, a, 74⟩,
    ⟨r4, a, b, c, d, e, 75⟩, ⟨r4, e, a, b, c, d, 76⟩, ⟨r4, d, e, a, b, c, 77⟩,
    ⟨r4, c, d, e, a, b, 78⟩, ⟨r4, b, c, d, e, a, 79⟩]

/-- The state after a block. -/
def wcSHA1Transform (state : State) (buffer : List UInt8) : State :=
  let last := unrolled.foldl (fun s call => call.run order s)
    { vars := state, block := loadBlock order buffer }
  state.add last.vars

end Macros

/-! ### The variables change places -/

/-- The variables in the order of their places, again and again. -/
def place (k : ℕ) : Var :=
  if k % 5 = 0 then .a else if k % 5 = 1 then .b else if k % 5 = 2 then .c
  else if k % 5 = 3 then .d else .e

def macroAt (n : ℕ) : Macro :=
  if n < 16 then .r0 else if n < 20 then .r1 else if n < 40 then .r2
  else if n < 60 then .r3 else .r4

/-- The operation `n`: one place to the right for each operation before it. -/
def callAt (n : ℕ) : Call :=
  ⟨macroAt n, place (4 * n), place (4 * n + 1), place (4 * n + 2), place (4 * n + 3),
    place (4 * n + 4), n⟩

theorem unrolled_eq : unrolled = (List.range 80).map callAt := by decide

/-- The variables as the standard names them before the operation `n`. -/
def standing (s : State) (n : ℕ) : Chain :=
  ⟨s.get (place (4 * n)), s.get (place (4 * n + 1)), s.get (place (4 * n + 2)),
    s.get (place (4 * n + 3)), s.get (place (4 * n + 4))⟩

/-- What an operation makes of the variables, under the standard's names. -/
theorem standing_succ (s : State) (n : ℕ) (x : UInt32) :
    standing ((s.set (place (4 * n + 4)) x).set (place (4 * n + 1))
      (rol ((s.set (place (4 * n + 4)) x).get (place (4 * n + 1))) 30)) (n + 1) =
      ⟨x, (standing s n).a, rotl (standing s n).b 30, (standing s n).c, (standing s n).d⟩ := by
  have hmod : n % 5 = 0 ∨ n % 5 = 1 ∨ n % 5 = 2 ∨ n % 5 = 3 ∨ n % 5 = 4 := by omega
  -- five rounds bring every variable back to its place
  have hplace : ∀ k, place (4 * n + k) = place (4 * (n % 5) + k) := by
    intro k
    have hk : (4 * n + k) % 5 = (4 * (n % 5) + k) % 5 := by omega
    rw [place, place, hk]
  have hzero : place (4 * n) = place (4 * (n % 5)) := hplace 0
  have hnext : 4 * (n + 1) = 4 * n + 4 := by ring
  simp only [standing, hnext, Nat.add_assoc, Nat.reduceAdd, hplace, hzero]
  rcases hmod with h | h | h | h | h <;> rw [h] <;> rfl

/-! ### The block -/

theorem Block.at_congr {l : Block} {i j : ℕ} (h : i % 16 = j % 16) : l.at i = l.at j := by
  simp only [Block.at, h]

theorem Block.at_put (l : Block) (i j : ℕ) (x : UInt32) :
    (l.put i x).at j = if i % 16 = j % 16 then x else l.at j := by
  simp only [Block.at, Block.put]
  exact Vector.getElem_set _ _

/-- A word as it was in memory, the first byte the most significant. -/
def bigEndian (order : ByteOrder) (x : UInt32) : UInt32 :=
  match order with
  | .little => (rol x 24 &&& 0xFF00FF00) ||| (rol x 8 &&& 0x00FF00FF)
  | .big => x

/-- The two rotations turn the bytes of a word round. -/
theorem bigEndian_hostWord (order : ByteOrder) (b₀ b₁ b₂ b₃ : UInt8) :
    bigEndian order (hostWord order b₀ b₁ b₂ b₃) = wordOf b₀ b₁ b₂ b₃ := by
  cases order with
  | big => rfl
  | little =>
      have hodd : ∀ j < 32, (UInt32.toBitVec 0xFF00FF00).getLsbD j =
          decide (8 ≤ j ∧ j < 16 ∨ 24 ≤ j ∧ j < 32) := by decide
      have heven : ∀ j < 32, (UInt32.toBitVec 0x00FF00FF).getLsbD j =
          decide (j < 8 ∨ 16 ≤ j ∧ j < 24) := by decide
      have hbyte : ∀ (b : UInt8) (j : ℕ), 8 ≤ j → b.toBitVec.getLsbD j = false :=
        fun b j hj => BitVec.getLsbD_of_ge _ _ hj
      have h8 : UInt32.toBitVec 8 % 32 = 8#32 := rfl
      have h16 : UInt32.toBitVec 16 % 32 = 16#32 := rfl
      have h24 : UInt32.toBitVec 24 % 32 = 24#32 := rfl
      have h8' : UInt32.toBitVec (32 - 24) % 32 = 8#32 := rfl
      have h24' : UInt32.toBitVec (32 - 8) % 32 = 24#32 := rfl
      apply UInt32.toBitVec_inj.mp
      apply BitVec.eq_of_getLsbD_eq
      intro i hi
      simp only [bigEndian, hostWord, rol, wordOf, UInt32.toBitVec_or, UInt32.toBitVec_and,
        UInt32.toBitVec_shiftLeft, UInt32.toBitVec_shiftRight, UInt8.toBitVec_toUInt32, h8, h16,
        h24, h8', h24', BitVec.getLsbD_or, BitVec.getLsbD_and, hodd i hi, heven i hi,
        BitVec.shiftLeft_eq', BitVec.ushiftRight_eq', BitVec.toNat_ofNat,
        BitVec.getLsbD_shiftLeft, BitVec.getLsbD_ushiftRight, BitVec.getLsbD_setWidth]
      clear hodd heven h8 h16 h24 h8' h24'
      -- each bit from its own byte
      rcases lt_or_ge i 8 with h1 | h1 <;> rcases lt_or_ge i 16 with h2 | h2 <;>
        rcases lt_or_ge i 24 with h3 | h3 <;> grind

theorem bigEndian_loadBlock (order : ByteOrder) (buffer : List UInt8) {t : ℕ} (ht : t < 16) :
    bigEndian order ((loadBlock order buffer).at t) = blockWord buffer t := by
  have hget : (loadBlock order buffer).at t = hostWord order (buffer.getD (4 * t) 0)
      (buffer.getD (4 * t + 1) 0) (buffer.getD (4 * t + 2) 0) (buffer.getD (4 * t + 3) 0) := by
    simp [Block.at, loadBlock, Nat.mod_eq_of_lt ht]
  rw [hget, bigEndian_hostWord]
  rfl

theorem blk0_eq (order : ByteOrder) (l : Block) (i : ℕ) :
    blk0 order l i = (bigEndian order (l.at i), l.put i (bigEndian order (l.at i))) := by
  cases order with
  | little => rfl
  | big =>
      show (l.at i, l) = (l.at i, l.put i (l.at i))
      rw [Block.put, Block.at, Vector.set_getElem_self]

/-! ### The rounds -/

/-- The expansion that the operation `n` uses. -/
def expandAt (order : ByteOrder) (n : ℕ) : Block → ℕ → UInt32 × Block :=
  if n < 16 then blk0 order else blk

theorem run_callAt (order : ByteOrder) (n : ℕ) :
    (callAt n).run order = operation (roundFunction n) (roundConstant n) (expandAt order n)
      (place (4 * n)) (place (4 * n + 1)) (place (4 * n + 2)) (place (4 * n + 3))
      (place (4 * n + 4)) n := by
  have hch : (fun w x y : UInt32 => (w &&& (x ^^^ y)) ^^^ y) = ch := by
    ext w x y
    rw [ch_eq]
  have hmaj : (fun w x y : UInt32 => ((w ||| x) &&& y) ||| (w &&& x)) = maj := by
    ext w x y
    rw [maj_eq]
  have hparity : (fun w x y : UInt32 => w ^^^ x ^^^ y) = parity := rfl
  simp only [Call.run, callAt, macroAt, expandAt, roundFunction, roundConstant]
  by_cases h16 : n < 16
  · simp only [h16, if_true, show n < 20 by omega, R0, hch]
  by_cases h20 : n < 20
  · simp only [h16, h20, if_true, if_false, R1, hch]
  by_cases h40 : n < 40
  · simp only [h16, h20, h40, if_true, if_false, R2, hparity]
  by_cases h60 : n < 60
  · simp only [h16, h20, h40, h60, if_true, if_false, R3, hmaj]
  · simp only [h16, h20, h40, h60, if_false, R4, hparity]

/-- The code is where the standard is before the round `n`. The block holds the
last sixteen words of the schedule, and those of the message still to be read. -/
structure Scheduled (order : ByteOrder) (h : Chain) (m : ℕ → UInt32) (n : ℕ) (s : Working) :
    Prop where
  vars : standing s.vars n = rounds (schedule m) h n
  recent : ∀ t, t < n → n ≤ t + 16 → s.block.at t = schedule m t
  unread : ∀ t, n ≤ t → t < 16 → bigEndian order (s.block.at t) = m t

variable {order : ByteOrder} {h : Chain} {m : ℕ → UInt32} {n : ℕ} {s : Working}

theorem Scheduled.expand (hs : Scheduled order h m n s) :
    expandAt order n s.block n = (schedule m n, s.block.put n (schedule m n)) := by
  by_cases h16 : n < 16
  · rw [expandAt, if_pos h16, blk0_eq, hs.unread n le_rfl h16, schedule_of_lt h16]
  · have hat : ∀ k, k ≤ 16 → 0 < k → s.block.at (n + (16 - k)) = schedule m (n - k) := by
      intro k hk hpos
      rw [Block.at_congr (j := n - k) (by omega)]
      exact hs.recent (n - k) (by omega) (by omega)
    have hself : s.block.at n = schedule m (n - 16) := hat 16 le_rfl (by omega)
    have hword : (blk s.block n).1 = schedule m n := by
      rw [schedule_of_le (by omega), ← hat 3 (by omega) (by omega), ← hat 8 (by omega) (by omega),
        ← hat 14 (by omega) (by omega), ← hself]
      rfl
    rw [expandAt, if_neg h16, ← hword]
    rfl

/-- **One operation is one round.** -/
theorem Scheduled.succ (hs : Scheduled order h m n s) :
    Scheduled order h m (n + 1) ((callAt n).run order s) := by
  have hrun : (callAt n).run order s =
      { vars :=
          (s.vars.set (place (4 * n + 4)) (roundStep (schedule m) (standing s.vars n) n).a).set
          (place (4 * n + 1))
          (rol ((s.vars.set (place (4 * n + 4))
            (roundStep (schedule m) (standing s.vars n) n).a).get (place (4 * n + 1))) 30),
        block := s.block.put n (schedule m n) } := by
    have hsum : s.vars.get (place (4 * n + 4)) +
        (roundFunction n (s.vars.get (place (4 * n + 1))) (s.vars.get (place (4 * n + 2)))
          (s.vars.get (place (4 * n + 3))) + schedule m n + roundConstant n +
          rol (s.vars.get (place (4 * n))) 5) =
        (roundStep (schedule m) (standing s.vars n) n).a := by
      show _ = rol (s.vars.get (place (4 * n))) 5 +
        roundFunction n (s.vars.get (place (4 * n + 1))) (s.vars.get (place (4 * n + 2)))
          (s.vars.get (place (4 * n + 3))) +
        s.vars.get (place (4 * n + 4)) + roundConstant n + schedule m n
      ac_rfl
    rw [run_callAt, operation, hs.expand, ← hsum]
  rw [hrun]
  constructor
  · rw [standing_succ, rounds_succ, ← hs.vars]
    rfl
  · intro t ht hlt
    rw [Block.at_put]
    split
    next hmod =>
      -- within the last sixteen rounds a place is written once
      obtain rfl : t = n := by omega
      rfl
    next hmod =>
      have hne : t ≠ n := fun heq => hmod (by rw [heq])
      exact hs.recent t (by omega) (by omega)
  · intro t ht hlt
    rw [Block.at_put, if_neg (by omega)]
    exact hs.unread t (by omega) hlt

theorem scheduled_run (order : ByteOrder) (h : Chain) (buffer : List UInt8) (n : ℕ) :
    Scheduled order h (blockWord buffer) n (((List.range n).map callAt).foldl
      (fun s call => call.run order s) { vars := h, block := loadBlock order buffer }) := by
  induction n with
  | zero =>
      refine ⟨rfl, fun t ht => absurd ht (by omega), fun t _ ht => ?_⟩
      exact bigEndian_loadBlock order buffer ht
  | succ n ih =>
      rw [List.range_succ, List.map_append, List.foldl_append]
      exact ih.succ

/-- **The unrolled code is the compression function**, on either kind of machine. -/
theorem wcSHA1Transform_eq (order : ByteOrder) (state : State) (buffer : List UInt8) :
    wcSHA1Transform order state buffer = compress state buffer := by
  have hvars := (scheduled_run order state buffer 80).vars
  -- the eightieth operation puts every variable back
  have hback : ∀ s : State, standing s 80 = s := fun s => rfl
  rw [hback] at hvars
  rw [wcSHA1Transform, unrolled_eq, hvars, compress, Chain.add_comm]

end WebcomSdk.Hash

import Mathlib.Tactic
import WebcomSdk.Lib.BigEndian

/-!
SHA-1 as the Secure Hash Standard has it: the padded message in blocks of
sixteen words, eighty rounds for each block.
-/

namespace WebcomSdk.Lib.Sha1

/-- The circular left shift. -/
def rotl (x n : UInt32) : UInt32 := x <<< n ||| x >>> (32 - n)

def ch (x y z : UInt32) : UInt32 := x &&& y ^^^ ~~~x &&& z

def parity (x y z : UInt32) : UInt32 := x ^^^ y ^^^ z

def maj (x y z : UInt32) : UInt32 := x &&& y ^^^ x &&& z ^^^ y &&& z

/-- The function of the round `t`. -/
def roundFunction (t : ℕ) : UInt32 → UInt32 → UInt32 → UInt32 :=
  if t < 20 then ch else if t < 40 then parity else if t < 60 then maj else parity

/-- The constant of the round `t`. -/
def roundConstant (t : ℕ) : UInt32 :=
  if t < 20 then 0x5A827999 else if t < 40 then 0x6ED9EBA1
  else if t < 60 then 0x8F1BBCDC else 0xCA62C1D6

/-- The five words of a hash value, and the working variables of a round. -/
@[ext] structure Chain where
  a : UInt32
  b : UInt32
  c : UInt32
  d : UInt32
  e : UInt32
deriving DecidableEq, Repr

def Chain.add (h k : Chain) : Chain := ⟨h.a + k.a, h.b + k.b, h.c + k.c, h.d + k.d, h.e + k.e⟩

def initial : Chain := ⟨0x67452301, 0xEFCDAB89, 0x98BADCFE, 0x10325476, 0xC3D2E1F0⟩

/-- The message schedule of a block `m` of sixteen words. -/
def schedule (m : ℕ → UInt32) (t : ℕ) : UInt32 :=
  if t < 16 then m t
  else rotl (schedule m (t - 3) ^^^ schedule m (t - 8) ^^^ schedule m (t - 14) ^^^
    schedule m (t - 16)) 1
termination_by t

def roundStep (w : ℕ → UInt32) (v : Chain) (t : ℕ) : Chain :=
  ⟨rotl v.a 5 + roundFunction t v.b v.c v.d + v.e + roundConstant t + w t,
    v.a, rotl v.b 30, v.c, v.d⟩

/-- The working variables before the round `n`. -/
def rounds (w : ℕ → UInt32) (h : Chain) (n : ℕ) : Chain := (List.range n).foldl (roundStep w) h

/-- Four bytes as a word, the first the most significant. -/
def wordOf (b₀ b₁ b₂ b₃ : UInt8) : UInt32 :=
  b₀.toUInt32 <<< 24 ||| b₁.toUInt32 <<< 16 ||| b₂.toUInt32 <<< 8 ||| b₃.toUInt32

/-- The word `t` of a block. -/
def blockWord (block : List UInt8) (t : ℕ) : UInt32 :=
  wordOf (block.getD (4 * t) 0) (block.getD (4 * t + 1) 0) (block.getD (4 * t + 2) 0)
    (block.getD (4 * t + 3) 0)

/-- The next hash value. -/
def compress (h : Chain) (block : List UInt8) : Chain :=
  (rounds (schedule (blockWord block)) h 80).add h

/-- The hash value after the whole blocks of `bytes`. -/
def absorb (h : Chain) (bytes : List UInt8) : Chain :=
  if 64 ≤ bytes.length then absorb (compress h (bytes.take 64)) (bytes.drop 64) else h
termination_by bytes.length
decreasing_by rw [List.length_drop]; omega

/-- How many zero bytes the padding of a message of `n` bytes has. -/
def padZeros (n : ℕ) : ℕ := (119 - n % 64) % 64

/-- The number of bits of a message of `n` bytes, in eight bytes. -/
def lengthField (n : ℕ) : List UInt8 := (toBigEndian 256 8 (8 * n)).map Nat.toUInt8

def pad (msg : List UInt8) : List UInt8 :=
  msg ++ 0x80 :: (List.replicate (padZeros msg.length) 0 ++ lengthField msg.length)

/-- The four bytes of a word, the most significant first. -/
def wordBytes (w : UInt32) : List UInt8 :=
  [(w >>> 24).toUInt8, (w >>> 16).toUInt8, (w >>> 8).toUInt8, w.toUInt8]

def Chain.bytes (h : Chain) : List UInt8 :=
  wordBytes h.a ++ wordBytes h.b ++ wordBytes h.c ++ wordBytes h.d ++ wordBytes h.e

/-- The digest of a message. -/
def digest (msg : List UInt8) : List UInt8 := (absorb initial (pad msg)).bytes

/-! ### The schedule and the rounds -/

theorem schedule_of_lt {m : ℕ → UInt32} {t : ℕ} (ht : t < 16) : schedule m t = m t := by
  rw [schedule, if_pos ht]

theorem schedule_of_le {m : ℕ → UInt32} {t : ℕ} (ht : 16 ≤ t) :
    schedule m t = rotl (schedule m (t - 3) ^^^ schedule m (t - 8) ^^^ schedule m (t - 14) ^^^
      schedule m (t - 16)) 1 := by
  rw [schedule, if_neg (by omega)]

theorem rounds_succ (w : ℕ → UInt32) (h : Chain) (n : ℕ) :
    rounds w h (n + 1) = roundStep w (rounds w h n) n := by
  rw [rounds, List.range_succ, List.foldl_append]
  rfl

theorem ch_eq (x y z : UInt32) : ch x y z = (x &&& (y ^^^ z)) ^^^ z := by
  apply UInt32.toBitVec_inj.mp
  show x.toBitVec &&& y.toBitVec ^^^ ~~~x.toBitVec &&& z.toBitVec =
    (x.toBitVec &&& (y.toBitVec ^^^ z.toBitVec)) ^^^ z.toBitVec
  ext i hi
  simp only [BitVec.getElem_xor, BitVec.getElem_and, BitVec.getElem_not]
  cases x.toBitVec[i] <;> simp

theorem maj_eq (x y z : UInt32) : maj x y z = ((x ||| y) &&& z) ||| (x &&& y) := by
  apply UInt32.toBitVec_inj.mp
  show x.toBitVec &&& y.toBitVec ^^^ x.toBitVec &&& z.toBitVec ^^^ y.toBitVec &&& z.toBitVec =
    ((x.toBitVec ||| y.toBitVec) &&& z.toBitVec) ||| (x.toBitVec &&& y.toBitVec)
  ext i hi
  simp only [BitVec.getElem_xor, BitVec.getElem_and, BitVec.getElem_or]
  cases x.toBitVec[i] <;> cases y.toBitVec[i] <;> simp

theorem Chain.add_comm (h k : Chain) : h.add k = k.add h := by
  apply Chain.ext <;> apply UInt32.add_comm

/-! ### Blocks -/

theorem absorb_of_lt {h : Chain} {bytes : List UInt8} (hlen : bytes.length < 64) :
    absorb h bytes = h := by
  rw [absorb, if_neg (by omega)]

theorem absorb_block {h : Chain} {block : List UInt8} (hlen : block.length = 64)
    (rest : List UInt8) : absorb h (block ++ rest) = absorb (compress h block) rest := by
  rw [absorb, if_pos (by rw [List.length_append]; omega), List.take_left' hlen,
    List.drop_left' hlen]

/-- Whole blocks are absorbed before what follows them. -/
theorem absorb_append {n : ℕ} {h : Chain} {blocks : List UInt8} (hlen : blocks.length = 64 * n)
    (rest : List UInt8) : absorb h (blocks ++ rest) = absorb (absorb h blocks) rest := by
  induction n generalizing h blocks with
  | zero =>
      obtain rfl := List.length_eq_zero_iff.mp hlen
      have hnil : absorb h [] = h := absorb_of_lt (by simp)
      rw [hnil]
      rfl
  | succ n ih =>
      have htake : (blocks.take 64).length = 64 := by rw [List.length_take]; omega
      have hdrop : (blocks.drop 64).length = 64 * n := by rw [List.length_drop]; omega
      rw [← List.take_append_drop 64 blocks, List.append_assoc, absorb_block htake,
        absorb_block htake, ih hdrop]

@[simp] theorem length_lengthField (n : ℕ) : (lengthField n).length = 8 := by simp [lengthField]

theorem length_pad (msg : List UInt8) : (pad msg).length % 64 = 0 := by
  simp only [pad, List.length_append, List.length_cons, List.length_replicate, length_lengthField,
    padZeros]
  omega

@[simp] theorem length_digest (msg : List UInt8) : (digest msg).length = 20 := rfl

end WebcomSdk.Lib.Sha1

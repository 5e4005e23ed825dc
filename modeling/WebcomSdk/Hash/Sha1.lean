import Mathlib.Tactic
import WebcomSdk.Hash.Sha1Transform

/-!
The streaming interface of `lib/sha1.c`. Lengths and counts are `uint32_t`; a
read or a write outside of a buffer ends the run with `none`.
-/

namespace WebcomSdk.Hash

open WebcomSdk.Lib WebcomSdk.Lib.Sha1

/-- `unsigned char buffer[64]`. -/
abbrev Buffer64 := {bytes : List UInt8 // bytes.length = 64}

/-- `wc_SHA1_CTX`, with `count[0]` and `count[1]`. -/
structure SHA1Ctx where
  state : State
  count0 : UInt32
  count1 : UInt32
  buffer : Buffer64

/-- `memcpy(&buffer[j], src, n)`, `src` being the `n` bytes read. -/
def memcpy (buffer : Buffer64) (j : ℕ) (src : List UInt8) : Option Buffer64 :=
  if h : j + src.length ≤ 64 then
    some ⟨buffer.val.take j ++ src ++ buffer.val.drop (j + src.length), by
      have := buffer.property
      simp only [List.length_append, List.length_take, List.length_drop]
      omega⟩
  else none

/-- The `n` bytes at `&data[i]`. -/
def readBytes (data : List UInt8) (i n : ℕ) : Option (List UInt8) :=
  if i + n ≤ data.length then some ((data.drop i).take n) else none

def wcSHA1Init (context : SHA1Ctx) : SHA1Ctx :=
  { context with
    state := ⟨0x67452301, 0xEFCDAB89, 0x98BADCFE, 0x10325476, 0xC3D2E1F0⟩
    count0 := 0
    count1 := 0 }

section Functions

variable (order : ByteOrder)

/-- `for (; i + 63 < len; i += 64)` of `wc_SHA1Update`. -/
def wholeBlocks (data : List UInt8) (len : UInt32) :
    ℕ → UInt32 → State → Option (UInt32 × State)
  | 0, _, _ => none
  | fuel + 1, i, state =>
      if i + 63 < len then
        (readBytes data i.toNat 64).bind fun block =>
          wholeBlocks data len fuel (i + 64) (wcSHA1Transform order state block)
      else some (i, state)

def wcSHA1Update (context : SHA1Ctx) (data : List UInt8) (len : UInt32) : Option SHA1Ctx := do
  let j := context.count0
  let count0 := j + len <<< 3
  let count1 := if count0 < j then context.count1 + 1 else context.count1
  let count1 := count1 + len >>> 29
  let j := (j >>> 3) &&& 63
  if j + len > 63 then
    let i := 64 - j
    let buffer ← memcpy context.buffer j.toNat (← readBytes data 0 i.toNat)
    let (i, state) ← wholeBlocks order data len (data.length + 1) i
      (wcSHA1Transform order context.state buffer.val)
    let buffer ← memcpy buffer 0 (← readBytes data i.toNat (len - i).toNat)
    return { state, count0, count1, buffer }
  else
    let buffer ← memcpy context.buffer j.toNat (← readBytes data 0 len.toNat)
    return { context with count0, count1, buffer }

/-- `finalcount[i]`. -/
def finalcount (context : SHA1Ctx) (i : ℕ) : UInt8 :=
  (((if 4 ≤ i then context.count0 else context.count1) >>>
    (((3 - i % 4) * 8 : ℕ).toUInt32)) &&& 255).toUInt8

/-- `while ((context->count[0] & 504) != 448)`. -/
def padLoop : ℕ → SHA1Ctx → Option SHA1Ctx
  | 0, _ => none
  | fuel + 1, context =>
      if context.count0 &&& 504 != 448 then
        (wcSHA1Update order context [0] 1).bind (padLoop fuel)
      else some context

/-- `context->state[k]`. -/
def stateAt (state : State) (k : ℕ) : UInt32 :=
  state.get (place k)

/-- `digest[i]`. -/
def digestByte (state : State) (i : ℕ) : UInt8 :=
  ((stateAt state (i / 4) >>> (((3 - i % 4) * 8 : ℕ).toUInt32)) &&& 255).toUInt8

/-- The digest. The context is wiped. -/
def wcSHA1Final (context : SHA1Ctx) : Option (List UInt8) := do
  let count := (List.range 8).map (finalcount context)
  let context ← wcSHA1Update order context [0x80] 1
  let context ← padLoop order 64 context
  let context ← wcSHA1Update order context count 8
  return (List.range 20).map (digestByte context.state)

/-- The loop of `wc_SHA1`. -/
def byteLoop (str : List UInt8) : ℕ → SHA1Ctx → Option SHA1Ctx
  | 0, ctx => some ctx
  | ii + 1, ctx =>
      (byteLoop str ii ctx).bind fun ctx =>
        (readBytes str ii 1).bind fun byte => wcSHA1Update order ctx byte 1

/-- `hash_out`, from whatever `ctx` holds before `wc_SHA1Init`. -/
def wcSHA1 (ctx : SHA1Ctx) (str : List UInt8) (len : ℤ) : Option (List UInt8) := do
  let ctx ← byteLoop order str len.toNat (wcSHA1Init ctx)
  let hash ← wcSHA1Final order ctx
  return hash ++ [0]

end Functions

/-! ### Counting -/

/-- Addition to a number of two digits. -/
theorem carry_add {B : ℕ} (hB : 0 < B) (high low l : ℕ) :
    ((high + (low + l % B) / B) % B + l / B) % B * B + (low + l % B) % B =
      (high * B + low + l) % (B * B) := by
  have hsum : high * B + low + l = (low + l % B) + (high + l / B) * B := by
    have := Nat.mod_add_div l B
    rw [Nat.add_mul, Nat.mul_comm (l / B) B]
    omega
  rw [hsum, Nat.mod_mul, Nat.add_mul_mod_self_right, Nat.add_mul_div_right _ _ hB, Nat.mod_add_mod]
  have hquot : (high + (low + l % B) / B + l / B) = (low + l % B) / B + (high + l / B) := by ring
  rw [hquot]
  ring

/-- The two counts are one number of 64 bits. -/
theorem count_add {count0 count1 len : UInt32} {n : ℕ}
    (h : count1.toNat * 2 ^ 32 + count0.toNat = 8 * n % 2 ^ 64) :
    ((if count0 + len <<< 3 < count0 then count1 + 1 else count1) + len >>> 29).toNat * 2 ^ 32 +
      (count0 + len <<< 3).toNat = 8 * (n + len.toNat) % 2 ^ 64 := by
  have hshift : (len <<< 3).toNat = 8 * len.toNat % 2 ^ 32 := by
    simp [UInt32.toNat_shiftLeft, Nat.shiftLeft_eq, Nat.mul_comm]
  have hcarry : (len >>> 29).toNat = len.toNat / 2 ^ 29 := by
    simp [UInt32.toNat_shiftRight, Nat.shiftRight_eq_div_pow]
  have hlen := len.toNat_lt
  have h0 := count0.toNat_lt
  have h1 := count1.toNat_lt
  have hif : (if count0 + len <<< 3 < count0 then count1 + 1 else count1).toNat =
      (count1.toNat + (count0.toNat + 8 * len.toNat % 2 ^ 32) / 2 ^ 32) % 2 ^ 32 := by
    have hlow : (count0 + len <<< 3).toNat = (count0.toNat + 8 * len.toNat % 2 ^ 32) % 2 ^ 32 := by
      rw [UInt32.toNat_add, hshift]
    split
    next hlt =>
      rw [UInt32.lt_iff_toNat_lt, hlow] at hlt
      rw [UInt32.toNat_add]
      simp only [UInt32.toNat_one]
      omega
    next hlt =>
      rw [UInt32.lt_iff_toNat_lt, hlow] at hlt
      omega
  have hdigit : len.toNat / 2 ^ 29 = 8 * len.toNat / 2 ^ 32 := by omega
  rw [UInt32.toNat_add, UInt32.toNat_add, hif, hshift, hcarry, hdigit,
    carry_add (by decide), h, Nat.mul_add]
  exact Nat.mod_add_mod _ _ _

/-- Where the buffer is filled up to. -/
theorem filled_eq {count0 count1 : UInt32} {n : ℕ}
    (h : count1.toNat * 2 ^ 32 + count0.toNat = 8 * n % 2 ^ 64) :
    ((count0 >>> 3) &&& 63).toNat = n % 64 := by
  have hshift : (count0 >>> 3).toNat = count0.toNat / 8 := by
    simp [UInt32.toNat_shiftRight, Nat.shiftRight_eq_div_pow]
  have hmask : ∀ k : ℕ, k &&& 63 = k % 64 := fun k => Nat.and_two_pow_sub_one_eq_mod k 6
  have h0 := count0.toNat_lt
  rw [UInt32.toNat_and, hshift]
  show count0.toNat / 8 &&& 63 = n % 64
  rw [hmask]
  omega

/-! ### What has been absorbed -/

/-- The context after a text whose whole blocks are `blocks` and whose rest is `tail`. -/
structure Holds (blocks tail : List UInt8) (context : SHA1Ctx) : Prop where
  whole : ∃ k, blocks.length = 64 * k
  short : tail.length < 64
  state : context.state = absorb initial blocks
  count : context.count1.toNat * 2 ^ 32 + context.count0.toNat =
    8 * (blocks.length + tail.length) % 2 ^ 64
  buffer : context.buffer.val.take tail.length = tail

/-- The context after the text `msg`. -/
def Absorbed (msg : List UInt8) (context : SHA1Ctx) : Prop :=
  ∃ blocks tail, msg = blocks ++ tail ∧ Holds blocks tail context

theorem absorbed_init (context : SHA1Ctx) : Absorbed [] (wcSHA1Init context) := by
  refine ⟨[], [], rfl, ⟨⟨0, rfl⟩, by decide, ?_, by simp [wcSHA1Init], rfl⟩⟩
  rw [absorb_of_lt (by simp)]
  rfl

theorem readBytes_take {data : List UInt8} {len i n : ℕ} (hlen : len ≤ data.length)
    (hin : i + n ≤ len) : readBytes data i n = some (((data.take len).drop i).take n) := by
  rw [readBytes, if_pos (by omega), List.drop_take, List.take_take, Nat.min_eq_left (by omega)]

theorem memcpy_of_le (buffer : Buffer64) {j : ℕ} (src : List UInt8) (h : j + src.length ≤ 64) :
    ∃ buffer' : Buffer64, memcpy buffer j src = some buffer' ∧
      buffer'.val.take (j + src.length) = buffer.val.take j ++ src := by
  refine ⟨_, by rw [memcpy, dif_pos h], ?_⟩
  have hj : (buffer.val.take j ++ src).length = j + src.length := by
    rw [List.length_append, List.length_take, buffer.property]
    omega
  exact List.take_left' hj

variable {data : List UInt8} {len : UInt32}

/-- The loop takes all the whole blocks that are left and nothing more. -/
theorem wholeBlocks_spec (order : ByteOrder) (hlen : len.toNat ≤ data.length)
    (hfit : len.toNat + 63 < 2 ^ 32) (fuel : ℕ) (i : UInt32) (state : State)
    (hi : i.toNat ≤ len.toNat) (hfuel : len.toNat - i.toNat < fuel) :
    ∃ blocks tail k i', (data.take len.toNat).drop i.toNat = blocks ++ tail ∧
      blocks.length = 64 * k ∧ tail.length < 64 ∧
      wholeBlocks order data len fuel i state = some (i', absorb state blocks) ∧
      i'.toNat = i.toNat + blocks.length := by
  induction fuel generalizing i state with
  | zero => exact absurd hfuel (by omega)
  | succ fuel ih =>
      have hadd : (i + 63).toNat = i.toNat + 63 := by
        rw [UInt32.toNat_add]
        exact Nat.mod_eq_of_lt (by simp only [UInt32.reduceToNat]; omega)
      rw [wholeBlocks]
      by_cases hlt : i + 63 < len
      · rw [if_pos hlt]
        rw [UInt32.lt_iff_toNat_lt, hadd] at hlt
        have hnext : (i + 64).toNat = i.toNat + 64 := by
          rw [UInt32.toNat_add]
          exact Nat.mod_eq_of_lt (by simp only [UInt32.reduceToNat]; omega)
        obtain ⟨blocks, tail, k, i', hsplit, hk, htail, hrun, hi'⟩ :=
          ih (i + 64) (compress state (((data.take len.toNat).drop i.toNat).take 64)) (by omega)
            (by omega)
        have hblock : (((data.take len.toNat).drop i.toNat).take 64).length = 64 := by
          simp only [List.length_take, List.length_drop]
          omega
        refine ⟨((data.take len.toNat).drop i.toNat).take 64 ++ blocks, tail, k + 1, i', ?_, ?_,
          htail, ?_, ?_⟩
        · rw [List.append_assoc, ← hsplit, hnext, ← List.drop_drop, List.take_append_drop]
        · rw [List.length_append, hblock, hk]
          ring
        · rw [readBytes_take hlen (by omega), Option.bind_some, wcSHA1Transform_eq, hrun,
            absorb_block hblock]
        · rw [hi', hnext, List.length_append, hblock]
          omega
      · rw [if_neg hlt]
        rw [UInt32.lt_iff_toNat_lt, hadd] at hlt
        refine ⟨[], (data.take len.toNat).drop i.toNat, 0, i, rfl, rfl, ?_, ?_, rfl⟩
        · simp only [List.length_drop, List.length_take]
          omega
        · rw [absorb_of_lt (by simp)]

/-! ### The update law -/

section Update

variable (order : ByteOrder) {context : SHA1Ctx} {blocks tail : List UInt8}

theorem Holds.filled (h : Holds blocks tail context) :
    ((context.count0 >>> 3) &&& 63).toNat = tail.length := by
  obtain ⟨k, hk⟩ := h.whole
  have hshort := h.short
  rw [filled_eq h.count, hk]
  omega

/-- The counts that `wc_SHA1Update` leaves. -/
def countsAfter (context : SHA1Ctx) (len : UInt32) : UInt32 × UInt32 :=
  (context.count0 + len <<< 3,
    (if context.count0 + len <<< 3 < context.count0 then context.count1 + 1
      else context.count1) + len >>> 29)

theorem Holds.counted (h : Holds blocks tail context) (len : UInt32) :
    (countsAfter context len).2.toNat * 2 ^ 32 + (countsAfter context len).1.toNat =
      8 * (blocks.length + tail.length + len.toNat) % 2 ^ 64 :=
  count_add h.count

/-- The data fits in what is free of the buffer. -/
theorem Holds.update_short (h : Holds blocks tail context) (hlen : len.toNat ≤ data.length)
    (hfits : tail.length + len.toNat < 64) :
    ∃ context', wcSHA1Update order context data len = some context' ∧
      Holds blocks (tail ++ data.take len.toNat) context' := by
  have hpiece : (data.take len.toNat).length = len.toNat := by
    rw [List.length_take, Nat.min_eq_left hlen]
  have hj := h.filled
  have hle : ¬ (63 : UInt32) < (context.count0 >>> 3 &&& (63 : UInt32)) + len := by
    rw [UInt32.lt_iff_toNat_lt, UInt32.toNat_add, hj, Nat.mod_eq_of_lt (by omega)]
    show ¬ 63 < tail.length + len.toNat
    omega
  obtain ⟨buffer, hcopy, hbuffer⟩ := memcpy_of_le context.buffer (j := tail.length)
    (data.take len.toNat) (by omega)
  refine ⟨{ context with
    count0 := (countsAfter context len).1, count1 := (countsAfter context len).2, buffer }, ?_,
    h.whole, ?_, h.state, ?_, ?_⟩
  · rw [wcSHA1Update]
    simp only [gt_iff_lt, hle, if_false, hj]
    rw [readBytes_take hlen (by omega), List.drop_zero, List.take_of_length_le (by omega)]
    simp only [Option.bind_eq_bind, Option.bind_some, hcopy]
    rfl
  · rw [List.length_append]
    omega
  · rw [List.length_append, hpiece, ← Nat.add_assoc]
    exact h.counted len
  · rw [List.length_append, hbuffer, h.buffer]

/-- The data fills the buffer up: a block from the buffer, whole blocks from the data
itself, and the rest to the start of the buffer. -/
theorem Holds.update_long (h : Holds blocks tail context) (hlen : len.toNat ≤ data.length)
    (hfit : len.toNat + 63 < 2 ^ 32) (hfull : 63 < tail.length + len.toNat) :
    ∃ context' more rest, wcSHA1Update order context data len = some context' ∧
      tail ++ data.take len.toNat = more ++ rest ∧ Holds (blocks ++ more) rest context' := by
  obtain ⟨k, hk⟩ := h.whole
  have hshort := h.short
  have hpiece : (data.take len.toNat).length = len.toNat := by
    rw [List.length_take, Nat.min_eq_left hlen]
  have hj := h.filled
  have hgt : (63 : UInt32) < (context.count0 >>> 3 &&& (63 : UInt32)) + len := by
    rw [UInt32.lt_iff_toNat_lt, UInt32.toNat_add, hj, Nat.mod_eq_of_lt (by omega)]
    exact hfull
  have hi : ((64 : UInt32) - (context.count0 >>> 3 &&& (63 : UInt32))).toNat =
      64 - tail.length := by
    rw [UInt32.toNat_sub_of_le _ _ (by rw [UInt32.le_iff_toNat_le, hj]; exact hshort.le), hj]
    rfl
  -- the buffer, full
  have hhead : ((data.take len.toNat).take (64 - tail.length)).length = 64 - tail.length := by
    rw [List.length_take, hpiece]
    omega
  obtain ⟨buffer, hcopy, hbuffer⟩ := memcpy_of_le context.buffer (j := tail.length)
    ((data.take len.toNat).take (64 - tail.length)) (by rw [hhead]; omega)
  have hall : buffer.val = tail ++ (data.take len.toNat).take (64 - tail.length) := by
    rw [h.buffer, hhead] at hbuffer
    rw [← hbuffer, List.take_of_length_le (by rw [buffer.property]; omega)]
  -- the blocks of the data
  obtain ⟨more, rest, n, i, hsplit, hn, hrest, hloop, hi'⟩ :=
    wholeBlocks_spec order hlen hfit (data.length + 1)
      ((64 : UInt32) - (context.count0 >>> 3 &&& (63 : UInt32)))
      (compress context.state buffer.val) (by rw [hi]; omega) (by omega)
  rw [hi] at hsplit hi'
  have hlengths := congrArg List.length hsplit
  rw [List.length_drop, List.length_append, hpiece] at hlengths
  -- the rest
  have hend : (len - i).toNat = rest.length := by
    rw [UInt32.toNat_sub_of_le _ _ (by rw [UInt32.le_iff_toNat_le]; omega)]
    omega
  have hread : readBytes data i.toNat (len - i).toNat = some rest := by
    rw [readBytes_take hlen (by omega), hi', ← List.drop_drop, hsplit, List.drop_left, hend,
      List.take_length]
  obtain ⟨last, hlast, hkept⟩ := memcpy_of_le buffer (j := 0) rest (by omega)
  have hfed : tail ++ data.take len.toNat = buffer.val ++ more ++ rest := by
    rw [hall, List.append_assoc, List.append_assoc, ← hsplit, List.take_append_drop]
  refine ⟨{ state := absorb (compress context.state buffer.val) more,
            count0 := (countsAfter context len).1, count1 := (countsAfter context len).2,
            buffer := last }, buffer.val ++ more, rest, ?_, hfed, ?_⟩
  · rw [wcSHA1Update]
    simp only [gt_iff_lt, hgt, if_true, hj]
    rw [readBytes_take hlen (by omega), List.drop_zero, hi]
    simp only [Option.bind_eq_bind, Option.bind_some, hcopy, wcSHA1Transform_eq, hloop, hread,
      hlast]
    rfl
  · refine ⟨⟨k + 1 + n, ?_⟩, hrest, ?_, ?_, ?_⟩
    · rw [List.length_append, List.length_append, buffer.property, hk, hn]
      ring
    · show absorb (compress context.state buffer.val) more = _
      rw [absorb_append hk, absorb_block buffer.property, h.state]
    · have hlength := congrArg List.length hfed
      simp only [List.length_append, hpiece] at hlength
      have hcounted := h.counted len
      rw [Nat.add_assoc, hlength] at hcounted
      rw [List.length_append, List.length_append, Nat.add_assoc]
      exact hcounted
    · rw [Nat.zero_add] at hkept
      rw [hkept]
      rfl

/-- **The update law.** What is fed is added to the text. -/
theorem wcSHA1Update_absorbed {msg : List UInt8} (h : Absorbed msg context)
    (hlen : len.toNat ≤ data.length) (hfit : len.toNat + 63 < 2 ^ 32) :
    ∃ context', wcSHA1Update order context data len = some context' ∧
      Absorbed (msg ++ data.take len.toNat) context' := by
  obtain ⟨blocks, tail, rfl, hold⟩ := h
  by_cases hfits : tail.length + len.toNat < 64
  · obtain ⟨context', hrun, hold'⟩ := hold.update_short order hlen hfits
    exact ⟨context', hrun, blocks, _, List.append_assoc .., hold'⟩
  · obtain ⟨context', more, rest, hrun, hsplit, hold'⟩ :=
      hold.update_long order hlen hfit (by omega)
    refine ⟨context', hrun, blocks ++ more, rest, ?_, hold'⟩
    rw [List.append_assoc, hsplit, List.append_assoc]

end Update

/-! ### The end of the text -/

section Final

variable (order : ByteOrder) {context : SHA1Ctx} {msg : List UInt8}

theorem Absorbed.count (h : Absorbed msg context) :
    context.count1.toNat * 2 ^ 32 + context.count0.toNat = 8 * msg.length % 2 ^ 64 := by
  obtain ⟨blocks, tail, rfl, hold⟩ := h
  rw [List.length_append]
  exact hold.count

theorem Absorbed.update (h : Absorbed msg context) (bytes : List UInt8) (len : UInt32)
    (hlen : bytes.length = len.toNat) (hfit : len.toNat + 63 < 2 ^ 32) :
    ∃ context', wcSHA1Update order context bytes len = some context' ∧
      Absorbed (msg ++ bytes) context' := by
  obtain ⟨context', hrun, h'⟩ := wcSHA1Update_absorbed order h hlen.ge hfit
  rw [← hlen, List.take_length] at h'
  exact ⟨context', hrun, h'⟩

/-- A text of whole blocks is all in the state. -/
theorem Absorbed.state_eq (h : Absorbed msg context) (hmod : msg.length % 64 = 0) :
    context.state = absorb initial msg := by
  obtain ⟨blocks, tail, rfl, hold⟩ := h
  obtain ⟨k, hk⟩ := hold.whole
  have hshort := hold.short
  rw [List.length_append] at hmod
  obtain rfl : tail = [] := List.length_eq_zero_iff.mp (by omega)
  rw [List.append_nil]
  exact hold.state

theorem and_504 (x : UInt32) :
    x &&& (504 : UInt32) = (x >>> 3 &&& (63 : UInt32)) <<< (3 : UInt32) := by
  apply UInt32.toBitVec_inj.mp
  apply BitVec.eq_of_getLsbD_eq
  intro i hi
  simp only [UInt32.toBitVec_and, UInt32.toBitVec_shiftLeft, UInt32.toBitVec_shiftRight]
  interval_cases i <;> simp

theorem Absorbed.padded_iff (h : Absorbed msg context) :
    (context.count0 &&& (504 : UInt32) != 448) = true ↔ msg.length % 64 ≠ 56 := by
  have hfilled := filled_eq h.count
  rw [bne_iff_ne, not_iff_not, and_504, ← UInt32.toNat_inj, UInt32.toNat_shiftLeft, hfilled,
    Nat.shiftLeft_eq]
  show msg.length % 64 * 8 % 2 ^ 32 = 448 ↔ _
  omega

/-- The loop feeds zeros up to the length field. -/
theorem padLoop_spec (h : Absorbed msg context) (zeros fuel : ℕ) (hfuel : zeros < fuel)
    (hzeros : (msg.length + zeros) % 64 = 56) (hleast : zeros < 64) :
    ∃ context', padLoop order fuel context = some context' ∧
      Absorbed (msg ++ List.replicate zeros 0) context' := by
  induction fuel generalizing context msg zeros with
  | zero => exact absurd hfuel (by omega)
  | succ fuel ih =>
      rw [padLoop]
      cases zeros with
      | zero =>
          rw [if_neg (by rw [h.padded_iff]; omega), List.replicate_zero, List.append_nil]
          exact ⟨context, rfl, h⟩
      | succ zeros =>
          obtain ⟨next, hrun, h'⟩ := h.update order [0] 1 rfl (by decide)
          obtain ⟨last, hlast, habsorbed⟩ := ih h' zeros (by omega)
            (by rw [List.length_append, List.length_singleton]; omega) (by omega)
          refine ⟨last, ?_, ?_⟩
          · rw [if_pos (by rw [h.padded_iff]; omega), hrun]
            exact hlast
          · rw [List.replicate_succ, ← List.singleton_append, ← List.append_assoc]
            exact habsorbed

theorem toUInt8_and_255 (x : UInt32) : (x &&& 255).toUInt8 = x.toUInt8 := by
  apply UInt8.toNat_inj.mp
  rw [UInt32.toNat_toUInt8, UInt32.toNat_toUInt8, UInt32.toNat_and]
  exact (congrArg (· % 256) (Nat.and_two_pow_sub_one_eq_mod x.toNat 8)).trans (Nat.mod_mod _ _)

/-- The eight bytes of the count are the length field. -/
theorem map_finalcount (h : Absorbed msg context) :
    (List.range 8).map (finalcount context) = lengthField msg.length := by
  have hbyte : ∀ (x : UInt32) (s : UInt32) (k : ℕ), s.toNat % 32 = 8 * k →
      ((x >>> s) &&& 255).toUInt8 = (x.toNat / 256 ^ k).toUInt8 := by
    intro x s k hs
    apply UInt8.toNat_inj.mp
    rw [toUInt8_and_255, UInt32.toNat_toUInt8, UInt32.toNat_shiftRight, hs,
      Nat.shiftRight_eq_div_pow, Nat.pow_mul]
    exact (UInt8.toNat_ofNat' ..).symm
  have hcongr : ∀ x y : ℕ, x % 256 = y % 256 → x.toUInt8 = y.toUInt8 := by
    intro x y hxy
    apply UInt8.toNat_inj.mp
    exact (UInt8.toNat_ofNat' ..).trans (hxy.trans (UInt8.toNat_ofNat' ..).symm)
  have hcount := h.count
  have h0 := context.count0.toNat_lt
  have h1 := context.count1.toNat_lt
  rw [lengthField, toBigEndian_eq_map, List.map_map]
  apply List.map_congr_left
  intro i hi
  rw [List.mem_range] at hi
  show finalcount context i = (8 * msg.length / 256 ^ (8 - 1 - i) % 256).toUInt8
  have hshift : ((3 - i % 4) * 8 : ℕ).toUInt32.toNat % 32 = 8 * (3 - i % 4) := by
    interval_cases i <;> rfl
  rw [finalcount, hbyte _ _ _ hshift]
  apply hcongr
  rw [Nat.mod_mod]
  generalize 8 * msg.length = bits at hcount
  -- a byte of the higher count for the first four, of the lower one for the others
  interval_cases i <;>
    simp only [Nat.reduceLeDiff, if_true, if_false, Nat.reduceMod, Nat.reduceSub,
      Nat.reducePow] <;>
    omega

theorem map_digestByte (state : State) : (List.range 20).map (digestByte state) = state.bytes := by
  show [_, _, _, _, _, _, _, _, _, _, _, _, _, _, _, _, _, _, _, _] =
    ([_, _, _, _, _, _, _, _, _, _, _, _, _, _, _, _, _, _, _, _] : List UInt8)
  simp only [digestByte, toUInt8_and_255]
  congr 1

/-- **The end of the stream.** The padding and the length are fed like any other text. -/
theorem wcSHA1Final_absorbed (h : Absorbed msg context) :
    wcSHA1Final order context = some (digest msg) := by
  obtain ⟨ctx₁, hone, h₁⟩ := h.update order [0x80] 1 rfl (by decide)
  have hzeros : padZeros msg.length < 64 := Nat.mod_lt _ (by decide)
  obtain ⟨ctx₂, hpad, h₂⟩ := padLoop_spec order h₁ (padZeros msg.length) 64 hzeros
    (by rw [List.length_append, List.length_singleton, padZeros]; omega) hzeros
  obtain ⟨ctx₃, hlast, h₃⟩ := h₂.update order (lengthField msg.length) 8
    (by rw [length_lengthField]; rfl) (by decide)
  have hpadded : msg ++ [0x80] ++ List.replicate (padZeros msg.length) 0 ++
      lengthField msg.length = pad msg := by
    rw [pad, List.append_assoc, List.append_assoc, List.singleton_append]
  rw [hpadded] at h₃
  rw [wcSHA1Final]
  simp only [Option.bind_eq_bind, Option.bind_some, hone, hpad, map_finalcount h, hlast]
  rw [h₃.state_eq (length_pad msg), map_digestByte]
  rfl

end Final

/-! ### Whole texts -/

/-- A text fed in pieces, each with its length. -/
def feed (order : ByteOrder) (context : SHA1Ctx) (pieces : List (List UInt8)) : Option SHA1Ctx :=
  pieces.foldlM (fun context piece =>
    wcSHA1Update order context piece piece.length.toUInt32) context

section Stream

variable (order : ByteOrder) {context : SHA1Ctx} {msg : List UInt8}

theorem Absorbed.feed (h : Absorbed msg context) {pieces : List (List UInt8)}
    (hfit : ∀ piece ∈ pieces, piece.length + 63 < 2 ^ 32) :
    ∃ context', feed order context pieces = some context' ∧
      Absorbed (msg ++ pieces.flatten) context' := by
  induction pieces generalizing context msg with
  | nil => exact ⟨context, rfl, by simpa using h⟩
  | cons piece pieces ih =>
      rw [List.forall_mem_cons] at hfit
      have hlen : piece.length = piece.length.toUInt32.toNat := by
        rw [UInt32.toNat_ofNat', Nat.mod_eq_of_lt (by omega)]
      obtain ⟨next, hrun, hnext⟩ := h.update order piece _ hlen
        (by rw [← hlen]; exact hfit.1)
      obtain ⟨last, hlast, habsorbed⟩ := ih hnext hfit.2
      refine ⟨last, ?_, ?_⟩
      · rw [WebcomSdk.Hash.feed, List.foldlM_cons, hrun]
        exact hlast
      · rw [List.flatten_cons, ← List.append_assoc]
        exact habsorbed

/-- **The stream.** However a text is cut into pieces, the digest is that of the text. -/
theorem wcSHA1Final_feed (context : SHA1Ctx) {pieces : List (List UInt8)}
    (hfit : ∀ piece ∈ pieces, piece.length + 63 < 2 ^ 32) :
    (feed order (wcSHA1Init context) pieces).bind (wcSHA1Final order) =
      some (digest pieces.flatten) := by
  obtain ⟨context', hrun, h⟩ := (absorbed_init context).feed order hfit
  rw [hrun, Option.bind_some, wcSHA1Final_absorbed order h]
  rfl

/-- "a" and "bc", over a context that has been used before. -/
theorem wcSHA1Final_feed_abc :
    (feed .little (wcSHA1Init ⟨⟨1, 2, 3, 4, 5⟩, 8, 0, ⟨List.replicate 64 97, rfl⟩⟩)
      [[97], [98, 99]]).bind (wcSHA1Final .little) = some (digest [97, 98, 99]) :=
  wcSHA1Final_feed .little _ (by decide)

theorem byteLoop_absorbed (h : Absorbed [] context) (str : List UInt8) (n : ℕ)
    (hn : n ≤ str.length) :
    ∃ context', byteLoop order str n context = some context' ∧ Absorbed (str.take n) context' := by
  induction n with
  | zero => exact ⟨context, rfl, h⟩
  | succ n ih =>
      obtain ⟨ctx, hrun, hctx⟩ := ih (by omega)
      have hbyte : readBytes str n 1 = some [str[n]] := by
        rw [readBytes, if_pos (by omega), List.take_one_drop_eq_of_lt_length hn]
        rfl
      obtain ⟨next, hnext, habsorbed⟩ := hctx.update order [str[n]] 1 rfl (by decide)
      refine ⟨next, ?_, ?_⟩
      · rw [byteLoop, hrun, Option.bind_some, hbyte, Option.bind_some]
        exact hnext
      · rw [List.take_succ_eq_append_getElem (by omega)]
        exact habsorbed

/-- **The whole function.** The digest of the first `len` bytes, and a terminator. -/
theorem wcSHA1_eq (ctx : SHA1Ctx) (str : List UInt8) (len : ℤ)
    (hlen : len ≤ str.length) :
    wcSHA1 order ctx str len = some (digest (str.take len.toNat) ++ [0]) := by
  obtain ⟨context', hrun, h⟩ := byteLoop_absorbed order (absorbed_init ctx) str len.toNat
    (by omega)
  rw [wcSHA1]
  simp only [Option.bind_eq_bind, hrun, Option.bind_some, wcSHA1Final_absorbed order h]
  rfl

theorem wcSHA1_eq_ab :
    wcSHA1 .big ⟨⟨0, 0, 0, 0, 0⟩, 0, 0, ⟨List.replicate 64 0, rfl⟩⟩ [97, 98, 99] 2 =
      some (digest [97, 98] ++ [0]) :=
  wcSHA1_eq .big _ [97, 98, 99] 2 (by decide)

end Stream

end WebcomSdk.Hash

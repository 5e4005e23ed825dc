import WebcomSdk.Cache.Treenode

/-!
The encoder of `lib/base64.c`, against the decoder of padded base 64. The
decoder is not in the source; it takes its alphabet from the character ranges
and refuses a text whose last group has bits that no byte gets.
-/

namespace WebcomSdk.Cache

open WebcomSdk.Datasync

/-! ### The encoder -/

/-- The loop of `base64_enc` and the cases that follow it. -/
def base64Enc : Bytes → Bytes
  | a :: b :: c :: rest => base64Block a b c ++ base64Enc rest
  | [a] => [baseAt (a >>> 2), baseAt ((a &&& 3) <<< 4), 61, 61]
  | [a, b] => [baseAt (a >>> 2), baseAt (((a &&& 3) <<< 4) ||| ((b &&& 0xf0) >>> 4)),
      baseAt ((b &&& 0xf) <<< 2), 61]
  | [] => []

/-! ### The decoder -/

/-- The six bits of a character. -/
def base64Value (c : UInt8) : Option ℕ :=
  if 65 ≤ c ∧ c ≤ 90 then some (c.toNat - 65)
  else if 97 ≤ c ∧ c ≤ 122 then some (c.toNat - 97 + 26)
  else if 48 ≤ c ∧ c ≤ 57 then some (c.toNat - 48 + 52)
  else if c = 43 then some 62
  else if c = 47 then some 63
  else none

/-- A padded group, the last of the text: one or two bytes. -/
def base64DecLast (c₀ c₁ c₂ : UInt8) : Option Bytes := do
  let v₀ ← base64Value c₀
  let v₁ ← base64Value c₁
  if c₂ = 61 then
    if v₁ % 16 = 0 then some [UInt8.ofNat (v₀ * 4 + v₁ / 16)] else none
  else
    let v₂ ← base64Value c₂
    if v₂ % 4 = 0 then
      some [UInt8.ofNat (v₀ * 4 + v₁ / 16), UInt8.ofNat (v₁ % 16 * 16 + v₂ / 4)]
    else none

def base64DecGroup (c₀ c₁ c₂ c₃ : UInt8) : Option Bytes := do
  let v₀ ← base64Value c₀
  let v₁ ← base64Value c₁
  let v₂ ← base64Value c₂
  let v₃ ← base64Value c₃
  some [UInt8.ofNat (v₀ * 4 + v₁ / 16), UInt8.ofNat (v₁ % 16 * 16 + v₂ / 4),
    UInt8.ofNat (v₂ % 4 * 64 + v₃)]

def base64Dec : Bytes → Option Bytes
  | [] => some []
  | c₀ :: c₁ :: c₂ :: c₃ :: rest =>
      if c₃ = 61 ∧ rest = [] then base64DecLast c₀ c₁ c₂
      else do
        let bytes ← base64DecGroup c₀ c₁ c₂ c₃
        let more ← base64Dec rest
        some (bytes ++ more)
  | _ => none

/-! ### The bits -/

theorem base64Value_baseAt {i : UInt8} {v : ℕ} (hi : i.toNat = v) (hv : v < 64) :
    base64Value (baseAt i) = some v := by
  have hall : ∀ n < 64, base64Value (baseAt (UInt8.ofNat n)) = some n := by decide +kernel
  have hn := hall v hv
  rwa [← hi, UInt8.ofNat_toNat, hi] at hn

theorem baseAt_ne_pad {i : UInt8} {v : ℕ} (hi : i.toNat = v) (hv : v < 64) : baseAt i ≠ 61 := by
  intro hpad
  have hvalue := base64Value_baseAt hi hv
  rw [hpad] at hvalue
  exact absurd hvalue (by simp [base64Value])

/-- The low bits of a byte. -/
theorem toNat_and_low (c : UInt8) (n : ℕ) {mask : UInt8} (hmask : mask.toNat = 2 ^ n - 1) :
    (c &&& mask).toNat = c.toNat % 2 ^ n := by
  rw [UInt8.toNat_and, hmask, Nat.and_two_pow_sub_one_eq_mod]

/-- The bits from the `n`th on, moved down. -/
theorem toNat_and_high (c : UInt8) (n : ℕ) {mask k : UInt8} (hk : k.toNat = n) (hn : n < 8)
    (hmask : mask.toNat >>> n = 2 ^ (8 - n) - 1) :
    ((c &&& mask) >>> k).toNat = c.toNat / 2 ^ n := by
  have hlt : c.toNat / 2 ^ n < 2 ^ (8 - n) := by
    rw [Nat.div_lt_iff_lt_mul (Nat.two_pow_pos n), ← Nat.pow_add, Nat.sub_add_cancel hn.le]
    exact c.toNat_lt
  rw [UInt8.toNat_shiftRight, UInt8.toNat_and, hk, Nat.mod_eq_of_lt hn,
    Nat.shiftRight_and_distrib, hmask, Nat.shiftRight_eq_div_pow,
    Nat.and_two_pow_sub_one_eq_mod, Nat.mod_eq_of_lt hlt]

/-- Bits that are moved up and not out of the byte. -/
theorem toNat_shiftLeft_fits {c k : UInt8} (n : ℕ) (hk : k.toNat = n) (hn : n < 8)
    (hfits : c.toNat * 2 ^ n < 2 ^ 8) : (c <<< k).toNat = 2 ^ n * c.toNat := by
  rw [UInt8.toNat_shiftLeft, hk, Nat.mod_eq_of_lt hn, Nat.shiftLeft_eq, Nat.mod_eq_of_lt hfits,
    Nat.mul_comm]

theorem toNat_high6 (a : UInt8) : (a >>> 2).toNat = a.toNat / 4 := by
  rw [UInt8.toNat_shiftRight]
  exact Nat.shiftRight_eq_div_pow a.toNat 2

theorem toNat_low2 (a : UInt8) : ((a &&& 3) <<< 4).toNat = 2 ^ 4 * (a.toNat % 4) := by
  have hlow : (a &&& 3).toNat = a.toNat % 4 := toNat_and_low a 2 rfl
  rw [toNat_shiftLeft_fits 4 rfl (by decide) (by omega), hlow]

theorem toNat_high4 (b : UInt8) : ((b &&& 0xf0) >>> 4).toNat = b.toNat / 16 :=
  toNat_and_high b 4 rfl (by decide) rfl

theorem toNat_low4 (b : UInt8) : ((b &&& 0xf) <<< 2).toNat = 2 ^ 2 * (b.toNat % 16) := by
  have hlow : (b &&& 0xf).toNat = b.toNat % 16 := toNat_and_low b 4 rfl
  rw [toNat_shiftLeft_fits 2 rfl (by decide) (by omega), hlow]

theorem toNat_high2 (c : UInt8) : ((c &&& 0xc0) >>> 6).toNat = c.toNat / 64 :=
  toNat_and_high c 6 rfl (by decide) rfl

theorem toNat_low6 (c : UInt8) : (c &&& 0x3f).toNat = c.toNat % 64 :=
  toNat_and_low c 6 rfl

theorem toNat_mid4 (a b : UInt8) :
    (((a &&& 3) <<< 4) ||| ((b &&& 0xf0) >>> 4)).toNat = a.toNat % 4 * 16 + b.toNat / 16 := by
  have hb := b.toNat_lt
  rw [UInt8.toNat_or, toNat_low2, toNat_high4, ← Nat.two_pow_add_eq_or_of_lt (by omega)]
  omega

theorem toNat_mid2 (b c : UInt8) :
    (((b &&& 0xf) <<< 2) ||| ((c &&& 0xc0) >>> 6)).toNat = b.toNat % 16 * 4 + c.toNat / 64 := by
  have hc := c.toNat_lt
  rw [UInt8.toNat_or, toNat_low4, toNat_high2, ← Nat.two_pow_add_eq_or_of_lt (by omega)]
  omega

theorem ofNat_eq {n : ℕ} {c : UInt8} (h : n = c.toNat) : UInt8.ofNat n = c := by
  rw [h, UInt8.ofNat_toNat]

/-! ### The round trip -/

section RoundTrip

variable (a b c : UInt8)

theorem value_first : base64Value (baseAt (a >>> 2)) = some (a.toNat / 4) :=
  base64Value_baseAt (toNat_high6 a) (by have := a.toNat_lt; omega)

theorem value_second : base64Value (baseAt (((a &&& 3) <<< 4) ||| ((b &&& 0xf0) >>> 4))) =
    some (a.toNat % 4 * 16 + b.toNat / 16) :=
  base64Value_baseAt (toNat_mid4 a b) (by have := b.toNat_lt; omega)

theorem value_third : base64Value (baseAt (((b &&& 0xf) <<< 2) ||| ((c &&& 0xc0) >>> 6))) =
    some (b.toNat % 16 * 4 + c.toNat / 64) :=
  base64Value_baseAt (toNat_mid2 b c) (by have := c.toNat_lt; omega)

theorem value_fourth : base64Value (baseAt (c &&& 0x3f)) = some (c.toNat % 64) :=
  base64Value_baseAt (toNat_low6 c) (by omega)

/-- A whole group gives its three bytes back, and is no padded group. -/
theorem base64Dec_block (rest : Bytes) :
    base64Dec (base64Block a b c ++ rest) =
      (base64Dec rest).map fun more => a :: b :: c :: more := by
  have hpad : baseAt (c &&& 0x3f) ≠ 61 := baseAt_ne_pad (toNat_low6 c) (by omega)
  have ha := a.toNat_lt
  have hb := b.toNat_lt
  have hc := c.toNat_lt
  have hgroup : base64DecGroup (baseAt (a >>> 2))
      (baseAt (((a &&& 3) <<< 4) ||| ((b &&& 0xf0) >>> 4)))
      (baseAt (((b &&& 0xf) <<< 2) ||| ((c &&& 0xc0) >>> 6))) (baseAt (c &&& 0x3f)) =
        some [a, b, c] := by
    rw [base64DecGroup, value_first, value_second, value_third, value_fourth]
    simp only [Option.bind_eq_bind, Option.bind_some]
    rw [ofNat_eq (c := a) (by omega), ofNat_eq (c := b) (by omega), ofNat_eq (c := c) (by omega)]
  rw [base64Block]
  simp only [List.cons_append, List.nil_append]
  rw [base64Dec, if_neg (fun h => hpad h.1), hgroup]
  cases base64Dec rest <;> rfl

theorem base64Dec_last_two : base64Dec (base64Enc [a, b]) = some [a, b] := by
  have ha := a.toNat_lt
  have hb := b.toNat_lt
  have hthird : ((b &&& 0xf) <<< 2).toNat = b.toNat % 16 * 4 := by
    rw [toNat_low4]
    omega
  have hvalue := base64Value_baseAt hthird (by omega)
  have hpad := baseAt_ne_pad hthird (by omega)
  rw [base64Enc, base64Dec, if_pos ⟨rfl, rfl⟩, base64DecLast, value_first, value_second]
  simp only [Option.bind_eq_bind, Option.bind_some, if_neg hpad, hvalue]
  rw [if_pos (by omega), ofNat_eq (c := a) (by omega), ofNat_eq (c := b) (by omega)]

theorem base64Dec_last_one : base64Dec (base64Enc [a]) = some [a] := by
  have ha := a.toNat_lt
  have hsecond : ((a &&& 3) <<< 4).toNat = a.toNat % 4 * 16 := by
    rw [toNat_low2]
    omega
  have hvalue := base64Value_baseAt hsecond (by omega)
  rw [base64Enc, base64Dec, if_pos ⟨rfl, rfl⟩, base64DecLast, value_first, hvalue]
  simp only [Option.bind_eq_bind, Option.bind_some, if_true]
  rw [if_pos (by omega), ofNat_eq (c := a) (by omega)]

end RoundTrip

theorem base64Dec_base64Enc (input : Bytes) : base64Dec (base64Enc input) = some input := by
  fun_induction base64Enc input with
  | case1 a b c rest ih => rw [base64Dec_block, ih, Option.map_some]
  | case2 a => exact base64Dec_last_one a
  | case3 a b => exact base64Dec_last_two a b
  | case4 => rfl

theorem length_base64Enc (input : Bytes) :
    (base64Enc input).length = 4 * ((input.length + 2) / 3) := by
  fun_induction base64Enc input with
  | case1 a b c rest ih =>
      rw [List.length_append, ih, base64Block]
      simp only [List.length_cons, List.length_nil]
      omega
  | case2 a => simp
  | case3 a b => simp
  | case4 => rfl

/-- The copy for digests. -/
theorem base64Enc20_eq (digest : Fin 20 → UInt8) :
    base64Enc20 digest = base64Enc (List.ofFn digest) := by
  simp only [List.ofFn_succ, List.ofFn_zero, base64Enc, base64Enc20, List.append_assoc]
  rfl

/-- **Base 64.** The length, the round trip, and the encoder of digests. -/
theorem base64_correct :
    (∀ input : Bytes, (base64Enc input).length = 4 * ((input.length + 2) / 3) ∧
      base64Dec (base64Enc input) = some input) ∧
    ∀ digest : Fin 20 → UInt8, base64Enc20 digest = base64Enc (List.ofFn digest) ∧
      (base64Enc20 digest).length = 28 :=
  ⟨fun input => ⟨length_base64Enc input, base64Dec_base64Enc input⟩,
    fun digest => ⟨base64Enc20_eq digest, rfl⟩⟩

end WebcomSdk.Cache

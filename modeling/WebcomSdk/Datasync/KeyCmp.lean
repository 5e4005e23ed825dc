import WebcomSdk.Datasync.Path

/-!
`wc_datasync_key_cmp` of `lib/datasync/path.c`. It returns the difference of two
integer keys, or of their lengths, as an `int`, that is, its 32 low bits.
-/

namespace WebcomSdk.Datasync

open Std

/-! ### Integer keys -/

/-- `isspace` in the C locale. -/
def isSpace (c : UInt8) : Bool := c = 32 || (9 ≤ c && c ≤ 13)

/-- The value of a digit, 16 for what is no digit in base 16. -/
def digitValue (c : UInt8) : ℕ :=
  if 48 ≤ c ∧ c ≤ 57 then c.toNat - 48
  else if 65 ≤ c ∧ c ≤ 70 then c.toNat - 55
  else if 97 ≤ c ∧ c ≤ 102 then c.toNat - 87
  else 16

def scanSign : Bytes → Bool × Bytes
  | 45 :: s => (true, s)
  | 43 :: s => (false, s)
  | s => (false, s)

/-- The base that `%i` reads off the prefix. -/
def scanBase : Bytes → ℕ × Bytes
  | 48 :: 120 :: s | 48 :: 88 :: s => (16, s)
  | 48 :: s => (8, 48 :: s)
  | s => (10, s)

/-- `sscanf(s, "%" SCNi64 "%n", …)`: the value and the number of bytes read. A
value out of range is the nearest one in range, and a bare `0x` is read as 0, as
the C library does it. -/
def sscanfI64 (s : Bytes) : Option (ℤ × ℕ) :=
  let (negative, t) := scanSign (s.dropWhile isSpace)
  let (base, t) := scanBase t
  let digits := t.takeWhile fun c => digitValue c < base
  if base ≠ 16 ∧ digits = [] then none
  else
    let n : ℤ := digits.foldl (fun n c => n * base + digitValue c) 0
    some (max (-2 ^ 63) (min (2 ^ 63 - 1) (if negative then -n else n)),
      s.length - (t.length - digits.length))

/-- The value of an integer key: the scan reads all of it. -/
def wholeInt (s : Key) : Option ℤ :=
  match sscanfI64 s with
  | some (i, read) => if read = s.length then some i else none
  | none => none

/-! ### The comparison -/

/-- An integer in an `int`. -/
def toInt (n : ℤ) : ℤ := n.bmod (2 ^ 32)

/-- The value of what the code takes for an integer key: `read == alen`, where
both are `int`s. -/
def intKey (s : Key) : Option ℤ :=
  match sscanfI64 s with
  | some (i, read) => if toInt read = toInt s.length then some i else none
  | none => none

/-- The sign of what `strcmp` returns. -/
def strcmpSign (sa sb : Key) : ℤ :=
  match strcmp sa sb with
  | .lt => -1
  | .eq => 0
  | .gt => 1

def wcDatasyncKeyCmp (sa sb : Key) : ℤ :=
  match intKey sa, intKey sb with
  | none, none => strcmpSign sa sb
  | some _, none => -1
  | none, some _ => 1
  | some ia, some ib =>
      if ia = ib then toInt (toInt sa.length - toInt sb.length) else toInt (ia - ib)

/-- The documented order: integer keys first, by value, then the other keys in
byte order. -/
def FollowsOrder (a b : Key) : Prop :=
  match wholeInt a, wholeInt b with
  | none, none => (wcDatasyncKeyCmp a b).sign = strcmpSign a b
  | some _, none => wcDatasyncKeyCmp a b < 0
  | none, some _ => 0 < wcDatasyncKeyCmp a b
  | some ia, some ib =>
      (ia < ib → wcDatasyncKeyCmp a b < 0) ∧ (ib < ia → 0 < wcDatasyncKeyCmp a b)

/-- The comparison is antisymmetric in sign and transitive on three keys, and
follows the documented order. -/
structure KeysOrdered (a b c : Key) : Prop where
  antisymm : ∀ x ∈ [a, b, c], ∀ y ∈ [a, b, c],
    (wcDatasyncKeyCmp x y).sign = -(wcDatasyncKeyCmp y x).sign
  trans : ∀ x ∈ [a, b, c], ∀ y ∈ [a, b, c], ∀ z ∈ [a, b, c],
    wcDatasyncKeyCmp x y ≤ 0 → wcDatasyncKeyCmp y z ≤ 0 → wcDatasyncKeyCmp x z ≤ 0
  documented : ∀ x ∈ [a, b, c], ∀ y ∈ [a, b, c], FollowsOrder x y

/-- The 32 low bits of a difference, as a signed number, have its sign. -/
def LowBitsFit (d : ℤ) : Prop :=
  (d < 0 → 2 ^ 31 ≤ d % 2 ^ 32) ∧ (0 < d → 0 < d % 2 ^ 32 ∧ d % 2 ^ 32 < 2 ^ 31)

/-- The difference of two integer keys survives the conversion to `int`. -/
def ValuesFit (a b : Key) : Prop :=
  ∀ ia ∈ wholeInt a, ∀ ib ∈ wholeInt b, LowBitsFit (ia - ib)

/-- So do all the differences that the code takes, those of the lengths included. -/
def DifferenceFits (a b : Key) : Prop :=
  ∀ ia ∈ intKey a, ∀ ib ∈ intKey b,
    LowBitsFit (ia - ib) ∧ (ia = ib → LowBitsFit (a.length - b.length))

theorem lowBitsFit_of_small {d : ℤ} (h : -2 ^ 31 < d) (h' : d < 2 ^ 31) : LowBitsFit d :=
  ⟨fun _ => by omega, fun _ => by omega⟩

theorem toInt_neg_iff (d : ℤ) : toInt d < 0 ↔ 2 ^ 31 ≤ d % 2 ^ 32 := by
  rw [toInt, Int.bmod]
  split <;> omega

theorem toInt_pos_iff (d : ℤ) : 0 < toInt d ↔ 0 < d % 2 ^ 32 ∧ d % 2 ^ 32 < 2 ^ 31 := by
  rw [toInt, Int.bmod]
  split <;> omega

theorem lowBitsFit_iff {d : ℤ} :
    LowBitsFit d ↔ (d < 0 → toInt d < 0) ∧ (0 < d → 0 < toInt d) := by
  rw [LowBitsFit, toInt_neg_iff, toInt_pos_iff]

theorem toInt_zero : toInt 0 = 0 := rfl

theorem toInt_of_small {n : ℕ} (h : n < 2 ^ 31) : toInt n = n := by
  rw [toInt, Int.bmod]
  split <;> omega

theorem toInt_sub (m n : ℤ) : toInt (toInt m - toInt n) = toInt (m - n) := by
  rw [toInt, toInt, toInt, toInt, Int.bmod_sub_bmod, Int.sub_bmod_bmod]

/-! ### Keys of less than `2 ^ 31` bytes -/

theorem read_le_length {s : Key} {i : ℤ} {read : ℕ} (h : sscanfI64 s = some (i, read)) :
    read ≤ s.length := by
  simp only [sscanfI64] at h
  split at h
  · cases h
  · obtain ⟨-, rfl⟩ := Prod.mk.inj (Option.some.inj h)
    exact Nat.sub_le _ _

theorem intKey_of_wholeInt {s : Key} {i : ℤ} (h : wholeInt s = some i) : intKey s = some i := by
  cases hscan : sscanfI64 s with
  | none => simp [wholeInt, hscan] at h
  | some r =>
      simp only [wholeInt, hscan, Option.ite_none_right_eq_some] at h
      simp [intKey, hscan, h.1, h.2]

/-- The code takes no other keys for integers. -/
theorem intKey_of_short {s : Key} (hshort : s.length < 2 ^ 31) : intKey s = wholeInt s := by
  cases hscan : sscanfI64 s with
  | none => simp [intKey, wholeInt, hscan]
  | some r =>
      have hread : r.2 ≤ s.length := read_le_length hscan
      simp only [intKey, wholeInt, hscan, toInt_of_small (hread.trans_lt hshort),
        toInt_of_small hshort, Nat.cast_inj]

/-- Of short keys only the values have to fit. -/
theorem ValuesFit.differenceFits {a b : Key} (h : ValuesFit a b) (ha : a.length < 2 ^ 31)
    (hb : b.length < 2 ^ 31) : DifferenceFits a b := by
  intro i hi j hj
  rw [intKey_of_short ha] at hi
  rw [intKey_of_short hb] at hj
  exact ⟨h i hi j hj, fun _ => lowBitsFit_of_small (by omega) (by omega)⟩

/-! ### Signs -/

section Cases

variable {a b c : Key} {i j k : ℤ}

theorem keyCmp_strings (ha : intKey a = none) (hb : intKey b = none) :
    wcDatasyncKeyCmp a b = strcmpSign a b := by
  simp [wcDatasyncKeyCmp, ha, hb]

theorem keyCmp_int_string (ha : intKey a = some i) (hb : intKey b = none) :
    wcDatasyncKeyCmp a b = -1 := by
  simp [wcDatasyncKeyCmp, ha, hb]

theorem keyCmp_string_int (ha : intKey a = none) (hb : intKey b = some j) :
    wcDatasyncKeyCmp a b = 1 := by
  simp [wcDatasyncKeyCmp, ha, hb]

theorem keyCmp_ints (ha : intKey a = some i) (hb : intKey b = some j) :
    wcDatasyncKeyCmp a b =
      if i = j then toInt (a.length - b.length) else toInt (i - j) := by
  simp only [wcDatasyncKeyCmp, ha, hb, toInt_sub]

/-- On two integer keys whose differences fit, the values decide, then the
lengths. -/
theorem keyCmp_ints_sign (ha : intKey a = some i) (hb : intKey b = some j)
    (hfit : DifferenceFits a b) :
    (wcDatasyncKeyCmp a b < 0 ↔ i < j ∨ (i = j ∧ a.length < b.length)) ∧
      (0 < wcDatasyncKeyCmp a b ↔ j < i ∨ (i = j ∧ b.length < a.length)) := by
  obtain ⟨hvalues, hlengths⟩ := hfit i ha j hb
  rw [keyCmp_ints ha hb]
  split
  next heq =>
    obtain ⟨hneg, hpos⟩ := lowBitsFit_iff.mp (hlengths heq)
    rcases Nat.lt_trichotomy a.length b.length with hlt | hsame | hgt
    · have := hneg (by omega)
      omega
    · rw [hsame, sub_self, toInt_zero]
      omega
    · have := hpos (by omega)
      omega
  next hne =>
    obtain ⟨hneg, hpos⟩ := lowBitsFit_iff.mp hvalues
    rcases lt_or_gt_of_ne hne with hlt | hgt
    · have := hneg (by omega)
      omega
    · have := hpos (by omega)
      omega

theorem strcmpSign_le_zero_iff : strcmpSign a b ≤ 0 ↔ (strcmp a b).isLE = true := by
  rw [strcmpSign]
  cases strcmp a b <;> simp

theorem strcmpSign_swap : strcmpSign a b = -strcmpSign b a := by
  have hswap : strcmp a b = (strcmp b a).swap := OrientedCmp.eq_swap
  rw [strcmpSign, strcmpSign, hswap]
  cases strcmp b a <;> rfl

theorem sign_strcmpSign : (strcmpSign a b).sign = strcmpSign a b := by
  rw [strcmpSign]
  cases strcmp a b <;> rfl

end Cases

/-! ### The order -/

section Order

variable {a b c : Key}

theorem keyCmp_antisymm (hab : DifferenceFits a b) (hba : DifferenceFits b a) :
    (wcDatasyncKeyCmp a b).sign = -(wcDatasyncKeyCmp b a).sign := by
  cases ha : intKey a with
  | none =>
      cases hb : intKey b with
      | none => rw [keyCmp_strings ha hb, keyCmp_strings hb ha, strcmpSign_swap, Int.sign_neg]
      | some j =>
          rw [keyCmp_string_int ha hb, keyCmp_int_string hb ha]
          rfl
  | some i =>
      cases hb : intKey b with
      | none =>
          rw [keyCmp_int_string ha hb, keyCmp_string_int hb ha]
          rfl
      | some j =>
          obtain ⟨hneg, hpos⟩ := keyCmp_ints_sign ha hb hab
          obtain ⟨hneg', hpos'⟩ := keyCmp_ints_sign hb ha hba
          rcases Int.lt_trichotomy (wcDatasyncKeyCmp a b) 0 with hlt | heq | hgt
          · have : 0 < wcDatasyncKeyCmp b a := by omega
            rw [Int.sign_eq_neg_one_of_neg hlt, Int.sign_eq_one_of_pos this]
          · have : wcDatasyncKeyCmp b a = 0 := by omega
            rw [heq, this]
            rfl
          · have : wcDatasyncKeyCmp b a < 0 := by omega
            rw [Int.sign_eq_one_of_pos hgt, Int.sign_eq_neg_one_of_neg this]
            rfl

theorem keyCmp_trans (hab : DifferenceFits a b) (hbc : DifferenceFits b c)
    (hac : DifferenceFits a c) (h : wcDatasyncKeyCmp a b ≤ 0) (h' : wcDatasyncKeyCmp b c ≤ 0) :
    wcDatasyncKeyCmp a c ≤ 0 := by
  cases ha : intKey a with
  | none =>
      cases hb : intKey b with
      | some j =>
          rw [keyCmp_string_int ha hb] at h
          exact absurd h (by decide)
      | none =>
          cases hc : intKey c with
          | some k =>
              rw [keyCmp_string_int hb hc] at h'
              exact absurd h' (by decide)
          | none =>
              rw [keyCmp_strings ha hb, strcmpSign_le_zero_iff] at h
              rw [keyCmp_strings hb hc, strcmpSign_le_zero_iff] at h'
              rw [keyCmp_strings ha hc, strcmpSign_le_zero_iff]
              exact TransCmp.isLE_trans h h'
  | some i =>
      cases hc : intKey c with
      | none =>
          rw [keyCmp_int_string ha hc]
          decide
      | some k =>
          cases hb : intKey b with
          | none =>
              rw [keyCmp_string_int hb hc] at h'
              exact absurd h' (by decide)
          | some j =>
              obtain ⟨-, hpos⟩ := keyCmp_ints_sign ha hb hab
              obtain ⟨-, hpos'⟩ := keyCmp_ints_sign hb hc hbc
              obtain ⟨-, hpos''⟩ := keyCmp_ints_sign ha hc hac
              omega

/-- Two short keys are in the documented order when their difference fits. -/
theorem followsOrder_of_fits (hab : DifferenceFits a b) (hshort : a.length < 2 ^ 31)
    (hshort' : b.length < 2 ^ 31) : FollowsOrder a b := by
  rw [FollowsOrder, ← intKey_of_short hshort, ← intKey_of_short hshort']
  cases ha : intKey a with
  | none =>
      cases hb : intKey b with
      | none =>
          simp only
          rw [keyCmp_strings ha hb, sign_strcmpSign]
      | some j =>
          simp only
          rw [keyCmp_string_int ha hb]
          decide
  | some i =>
      cases hb : intKey b with
      | none =>
          simp only
          rw [keyCmp_int_string ha hb]
          decide
      | some j =>
          obtain ⟨hneg, hpos⟩ := keyCmp_ints_sign ha hb hab
          exact ⟨fun hlt => hneg.mpr (.inl hlt), fun hlt => hpos.mpr (.inl hlt)⟩

theorem fits_of_followsOrder (h : FollowsOrder a b) : ValuesFit a b := by
  intro i ha j hb
  rw [Option.mem_def] at ha hb
  rw [FollowsOrder, ha, hb] at h
  simp only [keyCmp_ints (intKey_of_wholeInt ha) (intKey_of_wholeInt hb)] at h
  refine lowBitsFit_iff.mpr ⟨fun hneg => ?_, fun hpos => ?_⟩
  · have hlt := h.1 (by omega)
    rwa [if_neg (by omega)] at hlt
  · have hlt := h.2 (by omega)
    rwa [if_neg (by omega)] at hlt

/-- **The comparison orders three keys exactly when the differences of the
integer keys among them survive the conversion to `int`.** A key of `2 ^ 31` bytes
or more has a length that is no `int`. -/
theorem keys_ordered_iff (a b c : Key) :
    (KeysOrdered a b c → ∀ x ∈ [a, b, c], ∀ y ∈ [a, b, c], ValuesFit x y) ∧
      ((∀ x ∈ [a, b, c], x.length < 2 ^ 31) →
        (∀ x ∈ [a, b, c], ∀ y ∈ [a, b, c], ValuesFit x y) → KeysOrdered a b c) := by
  constructor
  · intro h x hx y hy
    exact fits_of_followsOrder (h.documented x hx y hy)
  · intro hshort h
    have hfits : ∀ x ∈ [a, b, c], ∀ y ∈ [a, b, c], DifferenceFits x y := fun x hx y hy =>
      (h x hx y hy).differenceFits (hshort x hx) (hshort y hy)
    refine ⟨fun x hx y hy => ?_, fun x hx y hy z hz => ?_, fun x hx y hy => ?_⟩
    · exact keyCmp_antisymm (hfits x hx y hy) (hfits y hy x hx)
    · exact keyCmp_trans (hfits x hx y hy) (hfits y hy z hz) (hfits x hx z hz)
    · exact followsOrder_of_fits (hfits x hx y hy) (hshort x hx) (hshort y hy)

/-- `"2"`, `"0x"` and `"a"`. -/
theorem keys_ordered_two_zero_a : KeysOrdered [50] [48, 120] [97] := by
  have hsmall : ∀ x ∈ [[50], [48, 120], [97]], ∀ i ∈ wholeInt x, 0 ≤ i ∧ i ≤ 2 := by decide
  refine (keys_ordered_iff [50] [48, 120] [97]).2 (by simp) fun x hx y hy i hi j hj => ?_
  have hxi := hsmall x hx i hi
  have hyj := hsmall y hy j hj
  exact lowBitsFit_of_small (by omega) (by omega)

/-- `"0"` and `"4294967296"` compare equal. -/
theorem zero_and_two_pow_32_not_ordered : ¬ ∀ a b c, KeysOrdered a b c := by
  intro h
  set big : Key := [52, 50, 57, 52, 57, 54, 55, 50, 57, 54] with hbig
  have hord := (h [48] big big).documented [48] (by simp) big (by simp)
  have hzero : wholeInt [48] = some 0 := by decide
  have hvalue : wholeInt big = some 4294967296 := by decide
  have hcmp : wcDatasyncKeyCmp [48] big = 0 := by
    rw [keyCmp_ints (intKey_of_wholeInt hzero) (intKey_of_wholeInt hvalue)]
    decide
  rw [FollowsOrder, hzero, hvalue, hcmp] at hord
  exact absurd (hord.1 (by decide)) (by decide)

end Order

end WebcomSdk.Datasync

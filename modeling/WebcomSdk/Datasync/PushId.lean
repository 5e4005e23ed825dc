import WebcomSdk.Lib.BigEndian
import WebcomSdk.Datasync.Path
import WebcomSdk.Cache.Treenode

/-!
Push identifiers, `wc_datasync_push_id` of `lib/datasync/datasync_utils.c`: 8
characters for the time and 12 for 9 random bytes, which are incremented while
the time stays the same.
-/

namespace WebcomSdk.Datasync

open WebcomSdk.Cache WebcomSdk.Lib

/-! ### The encoder -/

def b64Base : Bytes := ascii "-0123456789ABCDEFGHIJKLMNOPQRSTUVWXYZ_abcdefghijklmnopqrstuvwxyz"

/-- The indices of the characters for groups of 3 bytes. -/
def b64Groups : Bytes → List ℕ
  | x :: y :: z :: rest =>
      let tmp := z.toNat + y.toNat * 2 ^ 8 + x.toNat * 2 ^ 16
      tmp / 2 ^ 18 % 64 :: tmp / 2 ^ 12 % 64 :: tmp / 2 ^ 6 % 64 :: tmp % 64 :: b64Groups rest
  | _ => []

/-- The indices for the bytes that do not fill a group. The first of two bytes is
shifted by 18. -/
def b64Partial : Bytes → List ℕ
  | [x, y] =>
      let tmp := y.toNat + x.toNat * 2 ^ 8
      [tmp / 2 ^ 18 % 64, tmp / 2 ^ 6 % 64, tmp % 64]
  | [x] => [x.toNat / 2 ^ 6 % 64, x.toNat % 64]
  | _ => []

/-- The C code works from the end, so the partial group is the first. -/
def b64Indices (input : Bytes) : List ℕ :=
  b64Partial (input.take (input.length % 3)) ++ b64Groups (input.drop (input.length % 3))

def wcB64ishEncode (input : Bytes) : Bytes := (b64Indices input).map fun i => b64Base.getD i 0

/-! ### Identifiers -/

/-- `unsigned char[9]`. -/
structure RandBytes where
  bytes : Bytes
  length_eq : bytes.length = 9
  deriving DecidableEq

structure PushidState where
  lastTime : ℤ
  lastrand : RandBytes
  deriving DecidableEq

def toBytes (k n : ℕ) : Bytes := (toBigEndian 256 k n).map UInt8.ofNat

def ofBytes (bytes : Bytes) : ℕ := ofBigEndian 256 (bytes.map UInt8.toNat)

@[simp] theorem length_toBytes (k n : ℕ) : (toBytes k n).length = k := by simp [toBytes]

/-- The bytes 1 to 8 are a 64-bit number, the byte 0 takes the carry. -/
def incrementRand (r : RandBytes) : RandBytes :=
  let low := (ofBytes (r.bytes.drop 1) + 1) % 2 ^ 64
  let high := r.bytes.getD 0 0
  ⟨(if low = 0 then high + 1 else high) :: toBytes 8 low, by simp⟩

/-- `random` is what `rand_bytes` writes, if it is called. -/
def wcDatasyncPushId (time : ℤ) (random : RandBytes) (s : PushidState) : PushidState × Bytes :=
  let timeBe := toBytes 8 (time % 2 ^ 64).toNat
  let lastrand := if s.lastTime ≠ time then random else incrementRand s.lastrand
  (⟨time, lastrand⟩, wcB64ishEncode (timeBe.drop 2) ++ wcB64ishEncode lastrand.bytes)

/-- The identifiers of a sequence of calls. -/
def pushIds (s : PushidState) : List (ℤ × RandBytes) → List Bytes
  | [] => []
  | (time, random) :: calls =>
      let (s, id) := wcDatasyncPushId time random s
      id :: pushIds s calls

/-- No call within the millisecond of the one before finds the random part at its
maximum. -/
def CounterFits (s : PushidState) : List (ℤ × RandBytes) → Prop
  | [] => True
  | (time, random) :: calls =>
      (s.lastTime = time → ofBytes s.lastrand.bytes + 1 < 2 ^ 72) ∧
        CounterFits (wcDatasyncPushId time random s).1 calls

instance CounterFits.decidable : ∀ s calls, Decidable (CounterFits s calls)
  | _, [] => inferInstanceAs (Decidable True)
  | s, (time, random) :: calls =>
      have := CounterFits.decidable (wcDatasyncPushId time random s).1 calls
      inferInstanceAs (Decidable (_ ∧ _))

/-! ### The order of the encoder -/

theorem b64Base_sorted : b64Base.length = 64 ∧ b64Base.Pairwise (· < ·) := by decide +kernel

theorem b64Base_getD (i : ℕ) (hi : i < 64) (j : ℕ) (hj : j < 64) :
    compare (b64Base.getD i 0) (b64Base.getD j 0) = compare i j := by
  obtain ⟨hlen, hsorted⟩ := b64Base_sorted
  have hlt : ∀ i j, i < j → j < 64 → b64Base.getD i 0 < b64Base.getD j 0 := by
    intro i j hij hj
    have hi : i < b64Base.length := by omega
    have hj : j < b64Base.length := by omega
    rw [List.getD_eq_getElem?_getD, List.getD_eq_getElem?_getD, List.getElem?_eq_getElem hi,
      List.getElem?_eq_getElem hj]
    exact List.pairwise_iff_getElem.mp hsorted i j (by omega) (by omega) hij
  rcases Nat.lt_trichotomy i j with hij | rfl | hji
  · rw [Nat.compare_eq_lt.mpr hij, Std.compare_eq_lt]
    exact hlt i j hij hj
  · rw [Std.compare_self, Std.compare_self]
  · rw [Nat.compare_eq_gt.mpr hji, Std.compare_eq_gt]
    exact hlt j i hji hi

theorem b64Groups_lt (input : Bytes) : ∀ i ∈ b64Groups input, i < 64 := by
  fun_induction b64Groups input with
  | case1 x y z rest tmp ih =>
      have hmod : ∀ n, n % 64 < 64 := fun n => Nat.mod_lt n (by decide)
      simp only [List.forall_mem_cons]
      exact ⟨hmod _, hmod _, hmod _, hmod _, ih⟩
  | case2 => exact fun i hi => absurd hi List.not_mem_nil

/-- Four digits in base 64 for three in base 256. -/
theorem b64Groups_spec (k : ℕ) (input : Bytes) (hlen : input.length = 3 * k) :
    (b64Groups input).length = 4 * k ∧ ofBigEndian 64 (b64Groups input) = ofBytes input := by
  induction k generalizing input with
  | zero =>
      obtain rfl := List.length_eq_zero_iff.mp hlen
      exact ⟨rfl, rfl⟩
  | succ k ih =>
      match input, hlen with
      | x :: y :: z :: rest, hlen =>
          have hrest : rest.length = 3 * k := by simpa [Nat.mul_succ] using hlen
          obtain ⟨hlength, hvalue⟩ := ih rest hrest
          have hx := x.toNat_lt
          have hy := y.toNat_lt
          have hz := z.toNat_lt
          have hpow : 64 ^ (4 * k) = 256 ^ (3 * k) := by
            rw [Nat.pow_mul, Nat.pow_mul]
          rw [b64Groups, ofBytes, List.map_cons, List.map_cons, List.map_cons]
          simp only [ofBigEndian_cons, List.length_cons, List.length_map, hlength, hvalue, hrest,
            Nat.pow_succ, hpow]
          refine ⟨by omega, ?_⟩
          rw [ofBytes]
          generalize 256 ^ (3 * k) = p
          have hgroup : ∀ tmp < 2 ^ 24,
              tmp / 2 ^ 18 % 64 * 64 ^ 3 + tmp / 2 ^ 12 % 64 * 64 ^ 2 + tmp / 2 ^ 6 % 64 * 64 +
                tmp % 64 = tmp := by
            omega
          have hvalue := hgroup (z.toNat + y.toNat * 2 ^ 8 + x.toNat * 2 ^ 16) (by omega)
          linear_combination p * hvalue

theorem b64Indices_eq {k : ℕ} {input : Bytes} (hlen : input.length = 3 * k) :
    b64Indices input = b64Groups input := by
  have hmod : input.length % 3 = 0 := by omega
  rw [b64Indices, hmod]
  rfl

/-- Whole groups are encoded in the order of the numbers they spell. -/
theorem strcmp_encode (k l : ℕ) {t t' r r' : Bytes} (ht : t.length = 3 * k)
    (ht' : t'.length = 3 * k) (hr : r.length = 3 * l) (hr' : r'.length = 3 * l) :
    strcmp (wcB64ishEncode t ++ wcB64ishEncode r) (wcB64ishEncode t' ++ wcB64ishEncode r') =
      compare (ofBytes t * 2 ^ (24 * l) + ofBytes r) (ofBytes t' * 2 ^ (24 * l) + ofBytes r') := by
  have hlt : ∀ t r : Bytes, ∀ i ∈ b64Groups t ++ b64Groups r, i < 64 := by
    intro t r i hi
    rcases List.mem_append.mp hi with hi | hi
    · exact b64Groups_lt t i hi
    · exact b64Groups_lt r i hi
  have hvalue : ∀ {t r : Bytes}, t.length = 3 * k → r.length = 3 * l →
      ofBigEndian 64 (b64Groups t ++ b64Groups r) = ofBytes t * 2 ^ (24 * l) + ofBytes r := by
    intro t r ht hr
    rw [ofBigEndian_append, (b64Groups_spec k t ht).2, (b64Groups_spec l r hr).2,
      (b64Groups_spec l r hr).1]
    have hpow : 64 ^ (4 * l) = 2 ^ (24 * l) := by
      rw [Nat.pow_mul, Nat.pow_mul]
    rw [hpow]
  rw [wcB64ishEncode, wcB64ishEncode, wcB64ishEncode, wcB64ishEncode, b64Indices_eq ht,
    b64Indices_eq ht', b64Indices_eq hr, b64Indices_eq hr',
    ← List.map_append, ← List.map_append,
    strcmp, compareLex_map b64Base_getD (hlt t r) (hlt t' r'),
    compareLex_eq_compare (by decide) _ (hlt t r) (hlt t' r'), hvalue ht hr, hvalue ht' hr']
  simp [(b64Groups_spec k t ht).1, (b64Groups_spec k t' ht').1, (b64Groups_spec l r hr).1,
    (b64Groups_spec l r' hr').1]

/-! ### The number an identifier spells -/

theorem ofBytes_toBytes (k n : ℕ) : ofBytes (toBytes k n) = n % 256 ^ k := by
  have hdigits : (toBytes k n).map UInt8.toNat = toBigEndian 256 k n := by
    rw [toBytes, List.map_map]
    have hid : ∀ d ∈ toBigEndian 256 k n, (UInt8.toNat ∘ UInt8.ofNat) d = id d := by
      intro d hd
      have hlt := lt_of_mem_toBigEndian (by decide) hd
      exact UInt8.toNat_ofNat_of_lt' hlt
    rw [List.map_congr_left hid, List.map_id]
  rw [ofBytes, hdigits, ofBigEndian_toBigEndian]

theorem ofBytes_lt (bytes : Bytes) : ofBytes bytes < 256 ^ bytes.length := by
  rw [ofBytes, ← List.length_map UInt8.toNat]
  refine ofBigEndian_lt (by decide) fun d hd => ?_
  obtain ⟨c, -, rfl⟩ := List.mem_map.mp hd
  exact c.toNat_lt

theorem ofBytes_cons (c : UInt8) (bytes : Bytes) :
    ofBytes (c :: bytes) = c.toNat * 256 ^ bytes.length + ofBytes bytes := by
  rw [ofBytes, List.map_cons, ofBigEndian_cons, List.length_map]
  rfl

/-- Below its maximum the random part is the next number. -/
theorem ofBytes_incrementRand (r : RandBytes) (hfits : ofBytes r.bytes + 1 < 2 ^ 72) :
    ofBytes (incrementRand r).bytes = ofBytes r.bytes + 1 := by
  obtain ⟨bytes, hlen⟩ := r
  match bytes, hlen with
  | c :: rest, hlen =>
      have hrest : rest.length = 8 := by simpa using hlen
      have hlow := ofBytes_lt rest
      have hc := c.toNat_lt
      rw [hrest] at hlow
      rw [incrementRand]
      simp only [List.drop_succ_cons, List.drop_zero, List.getD_cons_zero, ofBytes_cons,
        length_toBytes, ofBytes_toBytes, hrest] at hfits ⊢
      split
      next hcarry =>
        have hadd : (c + 1).toNat = c.toNat + 1 := by
          rw [UInt8.toNat_add]
          simp
          omega
        omega
      next hcarry => omega

/-- The identifier that a call leaving this state has written. -/
def PushidState.lastId (s : PushidState) : Bytes :=
  wcB64ishEncode ((toBytes 8 (s.lastTime % 2 ^ 64).toNat).drop 2) ++
    wcB64ishEncode s.lastrand.bytes

theorem wcDatasyncPushId_id (time : ℤ) (random : RandBytes) (s : PushidState) :
    (wcDatasyncPushId time random s).2 = (wcDatasyncPushId time random s).1.lastId := rfl

theorem strcmp_lastId (s s' : PushidState) :
    strcmp s.lastId s'.lastId =
      compare
        (ofBytes ((toBytes 8 (s.lastTime % 2 ^ 64).toNat).drop 2) * 2 ^ 72 +
          ofBytes s.lastrand.bytes)
        (ofBytes ((toBytes 8 (s'.lastTime % 2 ^ 64).toNat).drop 2) * 2 ^ 72 +
          ofBytes s'.lastrand.bytes) :=
  strcmp_encode 2 3 (by simp) (by simp) s.lastrand.length_eq s'.lastrand.length_eq

/-- The characters for the time come from its 48 low bits. -/
theorem ofBytes_time {time : ℤ} (h : 0 ≤ time) (h' : time < 2 ^ 48) :
    (ofBytes ((toBytes 8 (time % 2 ^ 64).toNat).drop 2) : ℤ) = time := by
  have hsplit : ∀ bytes : Bytes, bytes.length = 8 →
      ofBytes bytes = ofBytes (bytes.take 2) * 256 ^ 6 + ofBytes (bytes.drop 2) := by
    intro bytes hlen
    have happend : ofBytes (bytes.take 2 ++ bytes.drop 2) =
        ofBytes (bytes.take 2) * 256 ^ (bytes.drop 2).length + ofBytes (bytes.drop 2) := by
      rw [ofBytes, List.map_append, ofBigEndian_append, List.length_map]
      rfl
    rwa [List.take_append_drop, List.length_drop, hlen] at happend
  have hvalue := hsplit _ (length_toBytes 8 (time % 2 ^ 64).toNat)
  have hlow := ofBytes_lt ((toBytes 8 (time % 2 ^ 64).toNat).drop 2)
  rw [List.length_drop, length_toBytes] at hlow
  rw [ofBytes_toBytes] at hvalue
  omega

/-! ### Sequences of calls -/

/-- A time that fits in the 48 bits written. -/
def TimeFits (time : ℤ) : Prop := 0 ≤ time ∧ time < 2 ^ 48

section Calls

variable {s : PushidState} {time : ℤ} {random : RandBytes} {calls : List (ℤ × RandBytes)}

/-- One call: the time prefix grows, or it stays and the counter grows. -/
theorem lastId_lt_pushId (hs : TimeFits s.lastTime) (htime : TimeFits time)
    (hle : s.lastTime ≤ time)
    (hfits : s.lastTime = time → ofBytes s.lastrand.bytes + 1 < 2 ^ 72) :
    strcmp s.lastId (wcDatasyncPushId time random s).2 = .lt := by
  rw [wcDatasyncPushId_id, strcmp_lastId, Nat.compare_eq_lt]
  have hprefix := ofBytes_time hs.1 hs.2
  have hprefix' := ofBytes_time htime.1 htime.2
  rcases hle.eq_or_lt with heq | hlt
  · have hrand : (wcDatasyncPushId time random s).1.lastrand = incrementRand s.lastrand :=
      if_neg (not_not.mpr heq)
    have hlast : (wcDatasyncPushId time random s).1.lastTime = s.lastTime := heq.symm
    rw [hrand, hlast, ofBytes_incrementRand _ (hfits heq)]
    omega
  · have hlast : (wcDatasyncPushId time random s).1.lastTime = time := rfl
    have hrand := ofBytes_lt s.lastrand.bytes
    rw [s.lastrand.length_eq] at hrand
    rw [hlast]
    omega

/-- All that is written later is above what was written last. -/
theorem lastId_lt_pushIds (hs : TimeFits s.lastTime) (hrange : ∀ c ∈ calls, TimeFits c.1)
    (hlater : ∀ c ∈ calls, s.lastTime ≤ c.1)
    (hsorted : calls.Pairwise fun c c' => c.1 ≤ c'.1) (hfits : CounterFits s calls) :
    ∀ id ∈ pushIds s calls, strcmp s.lastId id = .lt := by
  induction calls generalizing s with
  | nil => exact fun id hid => absurd hid List.not_mem_nil
  | cons c calls ih =>
      obtain ⟨time, random⟩ := c
      rw [List.forall_mem_cons] at hrange hlater
      obtain ⟨hfirst, hsorted⟩ := List.pairwise_cons.mp hsorted
      have hlt : strcmp s.lastId (wcDatasyncPushId time random s).2 = .lt :=
        lastId_lt_pushId hs hrange.1 hlater.1 hfits.1
      refine List.forall_mem_cons.mpr ⟨hlt, fun id hid => ?_⟩
      exact Std.TransCmp.lt_trans hlt (ih hrange.1 hrange.2 hfirst hsorted hfits.2 id hid)

/-- The first identifier needs nothing of the state before. -/
theorem pushIds_sorted (hrange : ∀ c ∈ calls, TimeFits c.1)
    (hsorted : calls.Pairwise fun c c' => c.1 ≤ c'.1) (hfits : CounterFits s calls) :
    (pushIds s calls).Pairwise fun id id' => strcmp id id' = .lt := by
  induction calls generalizing s with
  | nil => exact List.Pairwise.nil
  | cons c calls ih =>
      obtain ⟨time, random⟩ := c
      rw [List.forall_mem_cons] at hrange
      obtain ⟨hfirst, hsorted⟩ := List.pairwise_cons.mp hsorted
      refine List.pairwise_cons.mpr ⟨?_, ih hrange.2 hsorted hfits.2⟩
      exact lastId_lt_pushIds hrange.1 hrange.2 hfirst hsorted hfits.2

end Calls

theorem length_pushId (time : ℤ) (random : RandBytes) (s : PushidState) :
    (wcDatasyncPushId time random s).2.length = 20 := by
  have hlength : ∀ (k : ℕ) (input : Bytes), input.length = 3 * k →
      (wcB64ishEncode input).length = 4 * k := by
    intro k input hlen
    rw [wcB64ishEncode, List.length_map, b64Indices_eq hlen, (b64Groups_spec k input hlen).1]
  rw [wcDatasyncPushId_id, PushidState.lastId, List.length_append, hlength 2 _ (by simp),
    hlength 3 _ (RandBytes.length_eq _)]

/-- **Push identifiers.** Calls at times that do not go back write identifiers of
20 characters, all different, in the byte order. -/
theorem push_ids_increase (s : PushidState) (calls : List (ℤ × RandBytes))
    (hrange : ∀ c ∈ calls, TimeFits c.1) (hsorted : calls.Pairwise fun c c' => c.1 ≤ c'.1)
    (hfits : CounterFits s calls) :
    (∀ id ∈ pushIds s calls, id.length = 20) ∧ (pushIds s calls).Nodup ∧
      (pushIds s calls).Pairwise fun id id' => strcmp id id' = .lt := by
  have hpairwise := pushIds_sorted hrange hsorted hfits
  refine ⟨?_, hpairwise.imp fun {id id'} hlt heq => ?_, hpairwise⟩
  · clear hrange hsorted hfits hpairwise
    induction calls generalizing s with
    | nil => exact fun id hid => absurd hid List.not_mem_nil
    | cons c calls ih =>
        exact List.forall_mem_cons.mpr ⟨length_pushId c.1 c.2 s, ih _⟩
  · have hself : strcmp id' id' = .eq := Std.ReflCmp.compare_self
    rw [heq, hself] at hlt
    exact absurd hlt (by decide)

/-- Twice in one millisecond, with a carry into the first byte, and once more in
the next. -/
theorem push_ids_increase_carry :
    (pushIds ⟨0, ⟨List.replicate 9 0, rfl⟩⟩
        [(1496911743314, ⟨7 :: List.replicate 8 255, rfl⟩),
          (1496911743314, ⟨List.replicate 9 0, rfl⟩),
          (1496911743315, ⟨List.replicate 9 0, rfl⟩)]).Nodup :=
  (push_ids_increase _ _ (by simp [TimeFits]) (by simp) (by decide)).2.1

end WebcomSdk.Datasync

import WebcomSdk.Datasync.PushId

/-!
The order of `wc_b64ish_encode` for inputs of every length. Where two bytes are
left over, the shift by 18 leaves nothing of a 16-bit number, so that the high
four bits of the first byte are not in the text.
-/

namespace WebcomSdk.Datasync

open WebcomSdk.Lib

/-- The first byte without its high four bits. -/
def clearHigh : Bytes → Bytes
  | x :: rest => (x &&& 0x0f) :: rest
  | [] => []

/-- What the encoder has seen of its input. -/
def encodedPart (input : Bytes) : Bytes :=
  if input.length % 3 = 2 then clearHigh input else input

@[simp] theorem length_clearHigh (input : Bytes) : (clearHigh input).length = input.length := by
  cases input <;> rfl

@[simp] theorem length_encodedPart (input : Bytes) :
    (encodedPart input).length = input.length := by
  rw [encodedPart]
  split
  · exact length_clearHigh input
  · rfl

theorem b64Partial_lt (input : Bytes) : ∀ i ∈ b64Partial input, i < 64 := by
  have hmod : ∀ n, n % 64 < 64 := fun n => Nat.mod_lt n (by decide)
  fun_cases b64Partial input with
  | case1 x y tmp =>
      simp only [List.forall_mem_cons]
      exact ⟨hmod _, hmod _, hmod _, fun i hi => absurd hi List.not_mem_nil⟩
  | case2 x =>
      simp only [List.forall_mem_cons]
      exact ⟨hmod _, hmod _, fun i hi => absurd hi List.not_mem_nil⟩
  | case3 => exact fun i hi => absurd hi List.not_mem_nil

theorem b64Indices_lt (input : Bytes) : ∀ i ∈ b64Indices input, i < 64 := by
  intro i hi
  rcases List.mem_append.mp hi with hi | hi
  · exact b64Partial_lt _ i hi
  · exact b64Groups_lt _ i hi

/-- The partial group in base 64: the bytes, less what the wrong shift loses. -/
theorem b64Partial_value {first : Bytes} (hlen : first.length < 3) :
    ofBigEndian 64 (b64Partial first) =
      ofBytes (if first.length = 2 then clearHigh first else first) := by
  match first, hlen with
  | [], _ => rfl
  | [x], _ =>
      have hx := x.toNat_lt
      simp [b64Partial, ofBytes, ofBigEndian_cons]
      omega
  | [x, y], _ =>
      have hx := x.toNat_lt
      have hy := y.toNat_lt
      have hlow : (x &&& 0x0f).toNat = x.toNat % 16 := by
        rw [UInt8.toNat_and]
        exact Nat.and_two_pow_sub_one_eq_mod x.toNat 4
      simp [b64Partial, ofBytes, ofBigEndian_cons, clearHigh, hlow]
      omega

/-- The indices are the digits in base 64 of what the encoder has seen. -/
theorem b64Indices_value (input : Bytes) :
    ofBigEndian 64 (b64Indices input) = ofBytes (encodedPart input) := by
  have hmod : input.length % 3 < 3 := Nat.mod_lt _ (by decide)
  have hfirst : (input.take (input.length % 3)).length = input.length % 3 := by
    rw [List.length_take]
    exact min_eq_left (Nat.mod_le _ _)
  have hrest : (input.drop (input.length % 3)).length = 3 * (input.length / 3) := by
    rw [List.length_drop]
    omega
  obtain ⟨hlength, hvalue⟩ := b64Groups_spec _ _ hrest
  have hpart : encodedPart input =
      (if (input.take (input.length % 3)).length = 2 then clearHigh (input.take (input.length % 3))
        else input.take (input.length % 3)) ++ input.drop (input.length % 3) := by
    rw [encodedPart, hfirst]
    split
    next htwo =>
      rw [htwo]
      cases input with
      | nil => rfl
      | cons x input =>
          rw [List.take_succ_cons, List.drop_succ_cons, clearHigh, clearHigh, List.cons_append,
            List.take_append_drop]
    next => rw [List.take_append_drop]
  rw [b64Indices, ofBigEndian_append, hlength, hvalue,
    b64Partial_value (by rw [hfirst]; exact hmod), hpart, ofBytes, ofBytes,
    ofBytes, List.map_append, ofBigEndian_append, List.length_map, hrest,
    Nat.pow_mul, Nat.pow_mul]

theorem length_b64Indices {a b : Bytes} (hlen : a.length = b.length) :
    (b64Indices a).length = (b64Indices b).length := by
  have hpartial : ∀ {x y : Bytes}, x.length = y.length →
      (b64Partial x).length = (b64Partial y).length := by
    intro x y h
    match x, y, h with
    | [], [], _ => rfl
    | [_], [_], _ => rfl
    | [_, _], [_, _], _ => rfl
    | _ :: _ :: _ :: _, _ :: _ :: _ :: _, _ => rfl
  have hrest : ∀ x : Bytes, (x.drop (x.length % 3)).length = 3 * (x.length / 3) := by
    intro x
    rw [List.length_drop]
    omega
  rw [b64Indices, b64Indices, List.length_append, List.length_append,
    (b64Groups_spec _ _ (hrest a)).1, (b64Groups_spec _ _ (hrest b)).1, hlen,
    hpartial (x := a.take (b.length % 3)) (y := b.take (b.length % 3)) (by simp [hlen])]

theorem compare_eq_compare_toNat (x y : UInt8) : compare x y = compare x.toNat y.toNat := by
  rcases Nat.lt_trichotomy x.toNat y.toNat with hlt | heq | hgt
  · rw [Nat.compare_eq_lt.mpr hlt, Std.compare_eq_lt]
    exact UInt8.lt_iff_toNat_lt.mpr hlt
  · rw [Nat.compare_eq_eq.mpr heq, UInt8.toNat_inj.mp heq]
    exact Std.compare_self
  · rw [Nat.compare_eq_gt.mpr hgt, Std.compare_eq_gt]
    exact UInt8.lt_iff_toNat_lt.mpr hgt

theorem strcmp_eq_compare {a b : Bytes} (hlen : a.length = b.length) :
    strcmp a b = compare (ofBytes a) (ofBytes b) := by
  have hlt : ∀ x : Bytes, ∀ d ∈ x.map UInt8.toNat, d < 256 := by
    intro x d hd
    obtain ⟨c, -, rfl⟩ := List.mem_map.mp hd
    exact c.toNat_lt
  have hbytes : ∀ x : Bytes, x = (x.map UInt8.toNat).map UInt8.ofNat := by
    intro x
    rw [List.map_map]
    simp [Function.comp_def]
  have hcmp : ∀ d < 256, ∀ e < 256,
      compare (UInt8.ofNat d) (UInt8.ofNat e) = compare d e := by
    intro d hd e he
    rw [compare_eq_compare_toNat, UInt8.toNat_ofNat_of_lt' hd, UInt8.toNat_ofNat_of_lt' he]
  rw [ofBytes, ofBytes, ← compareLex_eq_compare (by decide) (by simpa using hlen) (hlt a) (hlt b),
    strcmp]
  nth_rewrite 1 [hbytes a]
  nth_rewrite 1 [hbytes b]
  exact compareLex_map hcmp (hlt a) (hlt b)

/-- Texts are in the order of what has been encoded. -/
theorem strcmp_wcB64ishEncode {a b : Bytes} (hlen : a.length = b.length) :
    strcmp (wcB64ishEncode a) (wcB64ishEncode b) = strcmp (encodedPart a) (encodedPart b) := by
  rw [strcmp_eq_compare (a := encodedPart a) (b := encodedPart b) (by simpa using hlen),
    ← b64Indices_value, ← b64Indices_value,
    ← compareLex_eq_compare (by decide) (length_b64Indices hlen) (b64Indices_lt a)
      (b64Indices_lt b)]
  exact compareLex_map b64Base_getD (b64Indices_lt a) (b64Indices_lt b)

theorem strcmp_encodedPart {a b : Bytes} (hlen : a.length = b.length) (hlt : strcmp a b = .lt) :
    strcmp (encodedPart a) (encodedPart b) = .lt ↔
      a.length % 3 ≠ 2 ∨ strcmp (clearHigh a) (clearHigh b) = .lt := by
  rw [encodedPart, encodedPart, ← hlen]
  split
  next htwo => simp [htwo]
  next hne => exact iff_of_true hlt (.inl hne)

/-- **The order of the encoder.** Two inputs of one length are encoded in their
order exactly when no two bytes are left over or the inputs are in that order
without the high four bits of their first bytes. -/
theorem wcB64ishEncode_lt_iff {a b : Bytes} (hlen : a.length = b.length)
    (hlt : strcmp a b = .lt) :
    strcmp (wcB64ishEncode a) (wcB64ishEncode b) = .lt ↔
      a.length % 3 ≠ 2 ∨ strcmp (clearHigh a) (clearHigh b) = .lt := by
  rw [strcmp_wcB64ishEncode hlen]
  exact strcmp_encodedPart hlen hlt

theorem wcB64ishEncode_lt_four_bytes :
    strcmp (wcB64ishEncode [1, 0, 0, 0]) (wcB64ishEncode [1, 0, 0, 255]) = .lt :=
  (wcB64ishEncode_lt_iff (by decide) (by decide)).mpr (.inl (by decide))

/-- Both are encoded as `"---"`. -/
theorem wcB64ishEncode_two_bytes : ¬ ∀ a b : Bytes, a.length = b.length → strcmp a b = .lt →
    strcmp (wcB64ishEncode a) (wcB64ishEncode b) = .lt := by
  intro h
  exact absurd (h [0, 0] [16, 0] rfl (by decide)) (by decide)

end WebcomSdk.Datasync

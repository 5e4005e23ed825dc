import WebcomSdk.Cache.JsonText
import WebcomSdk.Lib.JsonSyntax

/-!
What `json_escape_str` writes is a JSON string literal for the bytes it was
given.
-/

namespace WebcomSdk.Cache

open WebcomSdk.Lib WebcomSdk.Datasync

/-- The four digits of a control character. -/
theorem hexUnit_control (c : UInt8) (hc : c ≤ 0x1f) : ∃ x y z t,
    (hexnum c.toUInt64).drop 12 = [x, y, z, t] ∧ hexUnit x y z t = some c.toNat := by
  have hall : ∀ n < 32, (hexnum (UInt8.ofNat n).toUInt64).drop 12 =
        [48, 48, ((hexnum (UInt8.ofNat n).toUInt64).drop 14).headD 0,
          ((hexnum (UInt8.ofNat n).toUInt64).drop 15).headD 0] ∧
      hexUnit 48 48 (((hexnum (UInt8.ofNat n).toUInt64).drop 14).headD 0)
          (((hexnum (UInt8.ofNat n).toUInt64).drop 15).headD 0) = some n := by
    decide +kernel
  have hn := hall c.toNat (Nat.lt_succ_of_le (UInt8.le_iff_toNat_le.mp hc))
  rw [UInt8.ofNat_toNat] at hn
  exact ⟨_, _, _, _, hn⟩

theorem readEscape_control {c : UInt8} (hc : c ≤ 0x1f) (rest : Bytes) :
    readEscape (117 :: ((hexnum c.toUInt64).drop 12 ++ rest)) = some ([c], rest) := by
  obtain ⟨x, y, z, t, htext, hunit⟩ := hexUnit_control c hc
  have hlt : c.toNat < 32 := Nat.lt_succ_of_le (UInt8.le_iff_toNat_le.mp hc)
  have hutf8 : utf8 c.toNat = [c] := by
    rw [utf8, if_pos (by omega), UInt8.ofNat_toNat]
  rw [htext]
  simp only [List.cons_append, List.nil_append]
  have hunicode : readUnicode (x :: y :: z :: t :: rest) = some ([c], rest) := by
    rw [readUnicode, hunit]
    simp only [Option.bind_eq_bind, Option.bind_some]
    rw [if_pos (.inl (by omega)), hutf8]
  simpa [readEscape] using hunicode

/-- One character is read back from its escape. -/
theorem readChars_escapeChar (fuel : ℕ) (c : UInt8) (rest : Bytes) :
    readChars (fuel + 1) (escapeChar c ++ rest) =
      (readChars fuel rest).map fun p => (c :: p.1, p.2) := by
  -- the two-character escapes
  have hpair (d : UInt8) (hd : readEscape (d :: rest) = some ([c], rest)) :
      readChars (fuel + 1) (92 :: d :: rest) =
        (readChars fuel rest).map fun p => (c :: p.1, p.2) := readChars_escape hd
  rw [escapeChar]
  split_ifs with h34 h92 h8 h12 h10 h13 h9 hcontrol
  · exact hpair 34 (by rw [h34]; rfl)
  · exact hpair 92 (by rw [h92]; rfl)
  · exact hpair 98 (by rw [h8]; rfl)
  · exact hpair 102 (by rw [h12]; rfl)
  · exact hpair 110 (by rw [h10]; rfl)
  · exact hpair 114 (by rw [h13]; rfl)
  · exact hpair 116 (by rw [h9]; rfl)
  · exact readChars_escape (readEscape_control hcontrol rest)
  · refine readChars_plain h34 h92 fun hlt => ?_
    rw [UInt8.lt_iff_toNat_lt] at hlt
    exact hcontrol (UInt8.le_iff_toNat_le.mpr (Nat.le_of_lt_succ hlt))

theorem readChars_escaped {fuel : ℕ} {raw : Bytes} (hfuel : raw.length < fuel) (rest : Bytes) :
    readChars fuel (raw.flatMap escapeChar ++ 34 :: rest) = some (raw, rest) := by
  induction raw generalizing fuel with
  | nil =>
      obtain ⟨fuel, rfl⟩ := Nat.exists_eq_succ_of_ne_zero (Nat.ne_of_gt hfuel)
      rfl
  | cons c raw ih =>
      obtain ⟨fuel, rfl⟩ := Nat.exists_eq_succ_of_ne_zero (Nat.ne_of_gt (Nat.zero_lt_of_lt hfuel))
      rw [List.flatMap_cons, List.append_assoc, readChars_escapeChar,
        ih (Nat.lt_of_succ_lt_succ hfuel)]
      rfl

theorem length_le_escaped (raw : Bytes) : raw.length ≤ (raw.flatMap escapeChar).length := by
  induction raw with
  | nil => exact Nat.le_refl 0
  | cons c raw ih =>
      have hne : escapeChar c ≠ [] := by
        rw [escapeChar]
        split_ifs <;> exact List.cons_ne_nil _ _
      have := List.length_pos_iff.mpr hne
      rw [List.flatMap_cons, List.length_append, List.length_cons]
      omega

/-- A string is read back from its literal, whatever comes after it. -/
theorem readString_jsonEscapeStr (raw rest : Bytes) :
    readString (jsonEscapeStr raw ++ rest) = some (raw, rest) := by
  have htext : jsonEscapeStr raw ++ rest = 34 :: (raw.flatMap escapeChar ++ 34 :: rest) := by
    rw [jsonEscapeStr_eq]
    simp
  have := length_le_escaped raw
  rw [htext, readString]
  refine readChars_escaped ?_ rest
  simp only [List.length_append, List.length_cons]
  omega

theorem not_control_escapeChar (c : UInt8) : ∀ d ∈ escapeChar c, 0x20 ≤ d := by
  rw [escapeChar]
  split_ifs with h34 h92 h8 h12 h10 h13 h9 hcontrol
  · decide +kernel
  · decide +kernel
  · decide +kernel
  · decide +kernel
  · decide +kernel
  · decide +kernel
  · decide +kernel
  · have hall : ∀ n < 32,
        ∀ d ∈ ascii "\\u" ++ (hexnum (UInt8.ofNat n).toUInt64).drop 12, 0x20 ≤ d := by
      decide +kernel
    have hn := hall c.toNat (Nat.lt_succ_of_le (UInt8.le_iff_toNat_le.mp hcontrol))
    rwa [UInt8.ofNat_toNat] at hn
  · rw [List.forall_mem_singleton, UInt8.le_iff_toNat_le]
    rw [UInt8.le_iff_toNat_le] at hcontrol
    exact Nat.lt_of_not_le hcontrol

theorem not_control_jsonEscapeStr (raw : Bytes) : ∀ d ∈ jsonEscapeStr raw, 0x20 ≤ d := by
  intro d hd
  rw [jsonEscapeStr_eq, List.mem_append, List.mem_append, List.mem_flatMap] at hd
  rcases hd with (hd | ⟨c, -, hd⟩) | hd
  · obtain rfl := List.mem_singleton.mp hd
    decide
  · exact not_control_escapeChar c d hd
  · obtain rfl := List.mem_singleton.mp hd
    decide

/-- **Escaped strings.** Both printers put down one string literal, without raw
control characters, that is read back as the bytes given. -/
theorem jsonEscapeStr_literal (raw : Bytes) :
    readString (jsonEscapeStr raw) = some (raw, []) ∧ (∀ d ∈ jsonEscapeStr raw, 0x20 ≤ d) ∧
      Emits (jsonEscapeStrBuf raw) (jsonEscapeStr raw) ∧
      ∀ stream, fjsonEscapeStr raw stream = stream ++ jsonEscapeStr raw := by
  refine ⟨?_, not_control_jsonEscapeStr raw, emits_jsonEscapeStrBuf raw, fjsonEscapeStr_eq raw⟩
  have hread := readString_jsonEscapeStr raw []
  rwa [List.append_nil] at hread

end WebcomSdk.Cache

import Mathlib.Tactic
import Mathlib.Data.Nat.Digits.Lemmas

/-!
Big-endian numerals of a fixed length. Read digit by digit from the left they
are in the order of the numbers they stand for.
-/

namespace WebcomSdk.Lib

variable {b : ℕ}

/-- The number with the given digits, the most significant first. -/
def ofBigEndian (b : ℕ) (ds : List ℕ) : ℕ := Nat.ofDigits b ds.reverse

/-- The `k` low digits of a number, the most significant first. -/
def toBigEndian (b : ℕ) : ℕ → ℕ → List ℕ
  | 0, _ => []
  | k + 1, n => toBigEndian b k (n / b) ++ [n % b]

@[simp] theorem ofBigEndian_nil : ofBigEndian b [] = 0 := rfl

theorem ofBigEndian_append (ds es : List ℕ) :
    ofBigEndian b (ds ++ es) = ofBigEndian b ds * b ^ es.length + ofBigEndian b es := by
  rw [ofBigEndian, List.reverse_append, Nat.ofDigits_append, List.length_reverse, Nat.mul_comm,
    Nat.add_comm]
  rfl

theorem ofBigEndian_cons (d : ℕ) (ds : List ℕ) :
    ofBigEndian b (d :: ds) = d * b ^ ds.length + ofBigEndian b ds := by
  rw [← List.singleton_append, ofBigEndian_append]
  simp [ofBigEndian]

theorem ofBigEndian_lt (hb : 1 < b) {ds : List ℕ} (hds : ∀ d ∈ ds, d < b) :
    ofBigEndian b ds < b ^ ds.length := by
  rw [← List.length_reverse]
  exact Nat.ofDigits_lt_base_pow_length hb fun d hd => hds d (List.mem_reverse.mp hd)

@[simp] theorem length_toBigEndian (k n : ℕ) : (toBigEndian b k n).length = k := by
  induction k generalizing n with
  | zero => rfl
  | succ k ih => simp [toBigEndian, ih]

theorem toBigEndian_eq_map (k n : ℕ) :
    toBigEndian b k n = (List.range k).map fun i => n / b ^ (k - 1 - i) % b := by
  induction k generalizing n with
  | zero => rfl
  | succ k ih =>
      rw [toBigEndian, ih, List.range_succ, List.map_append]
      congr 1
      · apply List.map_congr_left
        intro i hi
        rw [List.mem_range] at hi
        rw [Nat.div_div_eq_div_mul, ← Nat.pow_succ']
        congr 3
        omega
      · simp

theorem lt_of_mem_toBigEndian (hb : 0 < b) {k n d : ℕ} (hd : d ∈ toBigEndian b k n) : d < b := by
  induction k generalizing n with
  | zero => exact absurd hd List.not_mem_nil
  | succ k ih =>
      rcases List.mem_append.mp hd with hd | hd
      · exact ih hd
      · rw [List.mem_singleton.mp hd]
        exact Nat.mod_lt n hb

theorem ofBigEndian_toBigEndian (k n : ℕ) : ofBigEndian b (toBigEndian b k n) = n % b ^ k := by
  induction k generalizing n with
  | zero => simp [toBigEndian, Nat.mod_one]
  | succ k ih =>
      rw [toBigEndian, ofBigEndian_append, ih, Nat.pow_succ', Nat.mod_mul]
      simp [ofBigEndian]
      ring

/-- The leftmost digits that differ decide. -/
theorem compareLex_eq_compare (hb : 1 < b) {ds es : List ℕ} (hlen : ds.length = es.length)
    (hds : ∀ d ∈ ds, d < b) (hes : ∀ e ∈ es, e < b) :
    List.compareLex compare ds es = compare (ofBigEndian b ds) (ofBigEndian b es) := by
  induction ds generalizing es with
  | nil =>
      obtain rfl := List.length_eq_zero_iff.mp hlen.symm
      rfl
  | cons d ds ih =>
      cases es with
      | nil => simp at hlen
      | cons e es =>
          rw [List.forall_mem_cons] at hds hes
          have hlen : ds.length = es.length := Nat.succ.inj hlen
          have hlt := ofBigEndian_lt hb hds.2
          have hlt' := ofBigEndian_lt hb hes.2
          rw [List.compareLex_cons_cons, ih hlen hds.2 hes.2, ofBigEndian_cons, ofBigEndian_cons,
            ← hlen]
          rw [← hlen] at hlt'
          generalize b ^ ds.length = p at hlt hlt' ⊢
          rcases Nat.lt_trichotomy d e with hde | rfl | hed
          · have hstep : (d + 1) * p ≤ e * p := Nat.mul_le_mul_right p hde
            have hsum : d * p + ofBigEndian b ds < e * p + ofBigEndian b es := by
              rw [Nat.add_one_mul] at hstep
              omega
            rw [Nat.compare_eq_lt.mpr hde, Nat.compare_eq_lt.mpr hsum]
            rfl
          · rw [Nat.compare_eq_eq.mpr rfl]
            simp [compare, compareOfLessAndEq]
          · have hstep : (e + 1) * p ≤ d * p := Nat.mul_le_mul_right p hed
            have hsum : e * p + ofBigEndian b es < d * p + ofBigEndian b ds := by
              rw [Nat.add_one_mul] at hstep
              omega
            rw [Nat.compare_eq_gt.mpr hed, Nat.compare_eq_gt.mpr hsum]
            rfl

/-- Digits may be written in any alphabet that is in their order. -/
theorem compareLex_map {α : Type*} {cmp : α → α → Ordering} {f : ℕ → α}
    (hf : ∀ d < b, ∀ e < b, cmp (f d) (f e) = compare d e) {ds es : List ℕ}
    (hds : ∀ d ∈ ds, d < b) (hes : ∀ e ∈ es, e < b) :
    List.compareLex cmp (ds.map f) (es.map f) = List.compareLex compare ds es := by
  induction ds generalizing es with
  | nil => cases es <;> rfl
  | cons d ds ih =>
      cases es with
      | nil => rfl
      | cons e es =>
          rw [List.forall_mem_cons] at hds hes
          rw [List.map_cons, List.map_cons, List.compareLex_cons_cons, List.compareLex_cons_cons,
            hf d hds.1 e hes.1, ih hds.2 hes.2]

end WebcomSdk.Lib

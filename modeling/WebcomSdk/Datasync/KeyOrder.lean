import WebcomSdk.Datasync.KeyCmp
import WebcomSdk.Collection.AvlAgree

/-!
Where `wc_datasync_key_cmp` fails to order the keys. Two integer keys whose
values and lengths differ by multiples of `2 ^ 31` both come before the other; on
any other keys the comparison tells them apart, and then the paths that start with
a given one are contiguous in the order of `wc_datasync_path_cmp`.
-/

namespace WebcomSdk.Datasync

open WebcomSdk.Lib WebcomSdk.Collection Std

/-- The sign of `wc_datasync_key_cmp`. -/
def wcDatasyncKeyOrd (a b : Key) : Ordering := compare (wcDatasyncKeyCmp a b) 0

section Ord

variable {x y : Key}

theorem keyOrd_ne_gt_iff : wcDatasyncKeyOrd x y ≠ .gt ↔ wcDatasyncKeyCmp x y ≤ 0 := by
  rw [wcDatasyncKeyOrd, ne_eq, compare_gt_iff_gt]
  exact Int.not_lt

theorem keyCmp_self : wcDatasyncKeyCmp x x = 0 := by
  cases hx : intKey x with
  | none =>
      have hself : strcmp x x = .eq := ReflCmp.compare_self
      rw [keyCmp_strings hx hx, strcmpSign, hself]
  | some i =>
      rw [keyCmp_ints hx hx, if_pos rfl, sub_self, toInt_zero]

instance : ReflCmp wcDatasyncKeyOrd where
  compare_self {x} := by
    rw [wcDatasyncKeyOrd, keyCmp_self]
    rfl

/-- A key that is no integer is equal to itself only. -/
theorem keyCmp_of_string (h : intKey x = none ∨ intKey y = none) :
    (wcDatasyncKeyCmp x y = 0 ↔ x = y) ∧
      (wcDatasyncKeyCmp x y ≤ 0 ∧ wcDatasyncKeyCmp y x ≤ 0 ↔ x = y) := by
  cases hx : intKey x with
  | none =>
      cases hy : intKey y with
      | none =>
          have heq : strcmpSign x y = 0 ↔ x = y := by
            have hbytes : strcmp x y = .eq ↔ x = y := LawfulEqCmp.compare_eq_iff_eq
            rw [strcmpSign, ← hbytes]
            cases strcmp x y <;> simp
          have hswap : strcmpSign x y = -strcmpSign y x := strcmpSign_swap
          rw [keyCmp_strings hx hy, keyCmp_strings hy hx, ← heq]
          omega
      | some j =>
          have hne : x ≠ y := by
            rintro rfl
            rw [hx] at hy
            cases hy
          rw [keyCmp_string_int hx hy, keyCmp_int_string hy hx]
          exact ⟨iff_of_false (by decide) hne, iff_of_false (by decide) hne⟩
  | some i =>
      have hy : intKey y = none := h.resolve_left (by simp [hx])
      have hne : x ≠ y := by
        rintro rfl
        rw [hx] at hy
        cases hy
      rw [keyCmp_int_string hx hy, keyCmp_string_int hy hx]
      exact ⟨iff_of_false (by decide) hne, iff_of_false (by decide) hne⟩

/-- Two integer keys whose values agree in the low `bits`, as do their lengths if
the values are the same. -/
def SameLow (bits : ℕ) (x y : Key) : Prop :=
  ∃ i ∈ intKey x, ∃ j ∈ intKey y,
    (2 ^ bits : ℤ) ∣ i - j ∧ (i = j → (2 ^ bits : ℤ) ∣ x.length - y.length)

theorem not_sameLow_of_string {bits : ℕ} (h : intKey x = none ∨ intKey y = none) :
    ¬ SameLow bits x y := by
  rintro ⟨i, hi, j, hj, -⟩
  rw [Option.mem_def] at hi hj
  rcases h with h | h
  · rw [h] at hi
    cases hi
  · rw [h] at hj
    cases hj

theorem sameLow_ints {bits : ℕ} {i j : ℤ} (hx : intKey x = some i) (hy : intKey y = some j) :
    SameLow bits x y ↔
      (2 ^ bits : ℤ) ∣ i - j ∧ (i = j → (2 ^ bits : ℤ) ∣ x.length - y.length) := by
  simp only [SameLow, hx, hy, Option.mem_some_iff, exists_eq_left']

/-- Each of two keys is at most the other. -/
abbrev Confused (x y : Key) : Prop := SameLow 31 x y

/-- The comparison returns 0 on two integer keys. -/
abbrev Tied (x y : Key) : Prop := SameLow 32 x y

theorem sameLow_of_eq {bits : ℕ} {i : ℤ} (hx : intKey x = some i) : SameLow bits x x :=
  (sameLow_ints hx hx).mpr ⟨by simp, fun _ => by simp⟩

theorem toInt_eq_zero_iff (d : ℤ) : toInt d = 0 ↔ (2 ^ 32 : ℤ) ∣ d := by
  have hpos := toInt_pos_iff d
  have hneg := toInt_neg_iff d
  omega

/-- Neither a difference nor its negation is positive as an `int`. -/
theorem toInt_le_both_iff (d : ℤ) : toInt d ≤ 0 ∧ toInt (-d) ≤ 0 ↔ (2 ^ 31 : ℤ) ∣ d := by
  have hpos := toInt_pos_iff d
  have hpos' := toInt_pos_iff (-d)
  omega

/-- Two keys that are each at most the other are identical or confused. -/
theorem keyCmp_le_both_iff :
    wcDatasyncKeyCmp x y ≤ 0 ∧ wcDatasyncKeyCmp y x ≤ 0 ↔ x = y ∨ Confused x y := by
  by_cases h : intKey x = none ∨ intKey y = none
  · rw [or_iff_left (not_sameLow_of_string h)]
    exact (keyCmp_of_string h).2
  · obtain ⟨⟨i, hx⟩, j, hy⟩ : (∃ i, intKey x = some i) ∧ ∃ j, intKey y = some j := by
      simpa only [not_or, ← ne_eq, Option.ne_none_iff_exists'] using h
    rw [or_iff_right_of_imp fun heq => heq ▸ sameLow_of_eq hx, Confused, sameLow_ints hx hy,
      keyCmp_ints hx hy, keyCmp_ints hy hx]
    rcases eq_or_ne i j with rfl | hne
    · rw [if_pos rfl, if_pos rfl, ← neg_sub (x.length : ℤ), toInt_le_both_iff]
      simp
    · rw [if_neg hne, if_neg hne.symm, ← neg_sub i, toInt_le_both_iff]
      simp [hne]

/-- **The comparison returns 0 on identical keys and on tied ones only.** -/
theorem keyCmp_eq_zero_iff : wcDatasyncKeyCmp x y = 0 ↔ x = y ∨ Tied x y := by
  by_cases h : intKey x = none ∨ intKey y = none
  · rw [or_iff_left (not_sameLow_of_string h)]
    exact (keyCmp_of_string h).1
  · obtain ⟨⟨i, hx⟩, j, hy⟩ : (∃ i, intKey x = some i) ∧ ∃ j, intKey y = some j := by
      simpa only [not_or, ← ne_eq, Option.ne_none_iff_exists'] using h
    rw [or_iff_right_of_imp fun heq => heq ▸ sameLow_of_eq hx, Tied, sameLow_ints hx hy,
      keyCmp_ints hx hy]
    rcases eq_or_ne i j with rfl | hne
    · rw [if_pos rfl, toInt_eq_zero_iff]
      simp
    · rw [if_neg hne, toInt_eq_zero_iff]
      simp [hne]

/-! ### Subtrees -/

/-- A parsed path with its parts in `S`. -/
def ParsedIn (S : Set Key) (p : Path) : Prop :=
  (∃ s, wcDatasyncPathParse s = p) ∧ ∀ part ∈ p, part ∈ S

/-- What lets a walk through the sorted paths stop at the first that does not
start with `pre`. -/
structure SubtreesContiguous (S : Set Key) : Prop where
  between : ∀ pre a b c, ParsedIn S pre → ParsedIn S a → ParsedIn S b → ParsedIn S c →
    wcDatasyncPathStartsWith a pre = true → wcDatasyncPathStartsWith c pre = true →
      wcDatasyncPathCmp wcDatasyncKeyOrd a b ≠ .gt →
        wcDatasyncPathCmp wcDatasyncKeyOrd b c ≠ .gt → wcDatasyncPathStartsWith b pre = true
  first : ∀ pre a, ParsedIn S pre → ParsedIn S a → wcDatasyncPathStartsWith a pre = true →
    wcDatasyncPathCmp wcDatasyncKeyOrd pre a ≠ .gt

theorem pathParse_part {part : Key} (hpart : IsPart part) : wcDatasyncPathParse part = [part] := by
  rw [wcDatasyncPathParse, pathScan_eq_take, components_self hpart.2, if_neg hpart.1]
  rfl

/-- **The paths that start with a given one are contiguous exactly when no two
different parts are confused.** -/
theorem subtrees_contiguous_iff (S : Set Key) : SubtreesContiguous S ↔
    ∀ x ∈ S, ∀ y ∈ S, IsPart x → IsPart y → Confused x y → x = y := by
  constructor
  · intro h x hxS y hyS hx hy hconfused
    obtain ⟨hxy, hyx⟩ := keyCmp_le_both_iff.mpr (.inr hconfused)
    have hin : ∀ {k : Key}, k ∈ S → IsPart k → ParsedIn S [k] := by
      intro k hk hpart
      exact ⟨⟨k, pathParse_part hpart⟩, fun part hp => List.mem_singleton.mp hp ▸ hk⟩
    -- `/x` is at most `/y` and `/y` at most `/x`
    have hle : ∀ {k k' : Key}, wcDatasyncKeyCmp k k' ≤ 0 →
        wcDatasyncPathCmp wcDatasyncKeyOrd [k] [k'] ≠ .gt := by
      intro k k' hk
      have hne := keyOrd_ne_gt_iff.mpr hk
      show (wcDatasyncKeyOrd k k').then .eq ≠ .gt
      cases hord : wcDatasyncKeyOrd k k' with
      | gt => exact absurd hord hne
      | _ => simp
    have hbetween := h.between [x] [x] [y] [x] (hin hxS hx) (hin hxS hx) (hin hyS hy) (hin hxS hx)
      (wcDatasyncPathStartsWith_iff.mpr List.prefix_rfl)
      (wcDatasyncPathStartsWith_iff.mpr List.prefix_rfl) (hle hxy) (hle hyx)
    rw [wcDatasyncPathStartsWith_iff, List.cons_prefix_cons] at hbetween
    exact hbetween.1
  · intro hapart
    refine ⟨fun pre a b c hpre ha hb hc hprea hprec hab hbc => ?_, fun pre a _ _ hprea => ?_⟩
    · rw [wcDatasyncPathStartsWith_iff] at hprea hprec ⊢
      rw [wcDatasyncPathCmp_eq] at hab hbc
      have hparts : ∀ {p : Path}, ParsedIn S p → ∀ part ∈ p, part ∈ {k | k ∈ S ∧ IsPart k} := by
        rintro p ⟨⟨s, hs⟩, hS⟩ part hpart
        refine ⟨hS part hpart, isPart_of_mem_components List.not_mem_nil s ?_⟩
        rw [← hs, wcDatasyncPathParse, pathScan_eq_take] at hpart
        exact List.mem_of_mem_take hpart
      refine prefix_of_between_on (fun x hx y hy hxy hyx => ?_) (hparts hpre) (hparts hb) hprea
        hprec hab hbc
      rcases keyCmp_le_both_iff.mp ⟨keyOrd_ne_gt_iff.mp hxy, keyOrd_ne_gt_iff.mp hyx⟩ with
        heq | hconfused
      · exact heq
      · exact hapart x hx.1 y hy.1 hx.2 hy.2 hconfused
    · rw [wcDatasyncPathStartsWith_iff] at hprea
      rw [wcDatasyncPathCmp_eq]
      exact compareLex_of_prefix hprea

/-- `/+1` lies between `/01` and itself. -/
theorem plus_one_between_zero_one : ¬ ∀ S : Set Key, SubtreesContiguous S := by
  intro h
  have hparse : wcDatasyncPathParse [47, 48, 49] = [[48, 49]] ∧
      wcDatasyncPathParse [47, 43, 49] = [[43, 49]] := by decide
  have hin : ParsedIn Set.univ [[48, 49]] ∧ ParsedIn Set.univ [[43, 49]] :=
    ⟨⟨⟨_, hparse.1⟩, fun _ _ => trivial⟩, ⟨⟨_, hparse.2⟩, fun _ _ => trivial⟩⟩
  have hbetween := (h Set.univ).between [[48, 49]] [[48, 49]] [[43, 49]] [[48, 49]]
    hin.1 hin.1 hin.2 hin.1 (by decide) (by decide) (by decide) (by decide)
  exact absurd hbetween (by decide)

/-! ### The orders behind the comparison -/

/-- The comparison without the conversion to `int`. -/
def keyValueOrd (a b : Key) : Ordering :=
  match intKey a, intKey b with
  | none, none => strcmp a b
  | some _, none => .lt
  | none, some _ => .gt
  | some ia, some ib => (compare ia ib).then (compare a.length b.length)

/-- Ties broken by the bytes: a total order of the keys. -/
def keyOrder : Key → Key → Ordering := compareLex keyValueOrd strcmp

/-- The keys that `wc_datasync_key_cmp` orders strictly. -/
def StrictOn (S : Set Key) : Prop :=
  ∀ x ∈ S, ∀ y ∈ S, DifferenceFits x y ∧ (Tied x y → x = y)

/-- The keys that are no integers. -/
def stringKeys : Set Key := {key | intKey key = none}

instance : DecidablePred (· ∈ stringKeys) := fun key =>
  inferInstanceAs (Decidable (intKey key = none))

theorem strictOn_stringKeys : StrictOn stringKeys := by
  intro a ha b hb
  have hnone : intKey a = none := ha
  refine ⟨fun i hi => ?_, fun htied => absurd htied (not_sameLow_of_string (.inl hnone))⟩
  rw [hnone] at hi
  cases hi

theorem then_isLE_iff {i j : ℤ} {m n : ℕ} :
    ((compare i j).then (compare m n)).isLE = true ↔ i < j ∨ i = j ∧ m ≤ n := by
  rcases Int.lt_trichotomy i j with hlt | rfl | hgt
  · rw [compare_lt_iff_lt.mpr hlt]
    exact iff_of_true rfl (.inl hlt)
  · have hself : compare i i = .eq := ReflCmp.compare_self
    rw [hself, Ordering.then, Nat.isLE_compare]
    simp
  · rw [compare_gt_iff_gt.mpr hgt]
    refine iff_of_false (fun h => ?_) (by omega)
    cases h

instance : OrientedCmp keyValueOrd where
  eq_swap {a b} := by
    cases ha : intKey a <;> cases hb : intKey b <;> simp only [keyValueOrd, ha, hb]
    · exact OrientedCmp.eq_swap
    · rfl
    · rfl
    · rename_i i j
      rw [Ordering.swap_then]
      congr 1 <;> exact OrientedCmp.eq_swap

instance : TransCmp keyValueOrd where
  isLE_trans {a b c} hab hbc := by
    cases ha : intKey a <;> cases hb : intKey b <;> cases hc : intKey c <;>
      simp only [keyValueOrd, ha, hb, hc] at hab hbc ⊢
    case none.none.none => exact TransCmp.isLE_trans hab hbc
    case some.some.some =>
      rw [then_isLE_iff] at hab hbc ⊢
      omega
    all_goals first | rfl | exact absurd hab (by decide) | exact absurd hbc (by decide)

instance : TransCmp keyOrder := inferInstanceAs (TransCmp (compareLex keyValueOrd strcmp))

instance : LawfulEqCmp keyOrder where
  eq_of_compare {a b} h := by
    have hbytes : strcmp a b = .eq := (Ordering.then_eq_eq.mp h).2
    exact LawfulEqCmp.eq_of_compare hbytes

/-- Keys whose difference fits are compared by their values. -/
theorem keyOrd_eq_valueOrd (h : DifferenceFits x y) :
    wcDatasyncKeyOrd x y = keyValueOrd x y := by
  cases hx : intKey x with
  | none =>
      cases hy : intKey y with
      | none =>
          rw [wcDatasyncKeyOrd, keyCmp_strings hx hy]
          simp only [keyValueOrd, hx, hy, strcmpSign]
          cases strcmp x y <;> rfl
      | some j =>
          rw [wcDatasyncKeyOrd, keyCmp_string_int hx hy]
          simp only [keyValueOrd, hx, hy]
          rfl
  | some i =>
      cases hy : intKey y with
      | none =>
          rw [wcDatasyncKeyOrd, keyCmp_int_string hx hy]
          simp only [keyValueOrd, hx, hy]
          rfl
      | some j =>
          obtain ⟨hneg, hpos⟩ := keyCmp_ints_sign hx hy h
          simp only [keyValueOrd, hx, hy, wcDatasyncKeyOrd]
          rcases Int.lt_trichotomy i j with hlt | rfl | hgt
          · rw [compare_lt_iff_lt.mpr hlt, compare_lt_iff_lt.mpr (hneg.mpr (.inl hlt))]
            rfl
          · have hself : compare i i = .eq := ReflCmp.compare_self
            rw [hself, Ordering.then]
            rcases Nat.lt_trichotomy x.length y.length with hlt | heq | hgt
            · rw [compare_lt_iff_lt.mpr hlt, compare_lt_iff_lt.mpr (hneg.mpr (.inr ⟨rfl, hlt⟩))]
            · rw [Nat.compare_eq_eq.mpr heq, keyCmp_ints hx hy, if_pos rfl, heq, sub_self]
              rfl
            · rw [compare_gt_iff_gt.mpr hgt, compare_gt_iff_gt.mpr (hpos.mpr (.inr ⟨rfl, hgt⟩))]
          · rw [compare_gt_iff_gt.mpr hgt, compare_gt_iff_gt.mpr (hpos.mpr (.inl hgt))]
            rfl

/-- Keys that differ and are equal by value are tied. -/
theorem keyValueOrd_eq_iff (h : DifferenceFits x y) (hne : x ≠ y) :
    keyValueOrd x y = .eq ↔ Tied x y := by
  have hzero : compare (wcDatasyncKeyCmp x y) 0 = .eq ↔ wcDatasyncKeyCmp x y = 0 :=
    LawfulEqCmp.compare_eq_iff_eq
  rw [← keyOrd_eq_valueOrd h, wcDatasyncKeyOrd, hzero, keyCmp_eq_zero_iff, or_iff_right hne]

/-- On keys that it orders strictly the comparison is a total order. -/
theorem agreeOn_keyOrder {S : Set Key} (hS : StrictOn S) :
    AgreeOn S wcDatasyncKeyOrd keyOrder := by
  intro x hx y hy
  obtain ⟨hfits, htied⟩ := hS x hx y hy
  have hlex : keyOrder x y = (keyValueOrd x y).then (strcmp x y) := rfl
  rcases eq_or_ne x y with rfl | hne
  · have hself : strcmp x x = .eq := ReflCmp.compare_self
    rw [hlex, keyOrd_eq_valueOrd hfits, hself, Ordering.then_eq]
  · have happart : keyValueOrd x y ≠ .eq := fun heq =>
      hne (htied ((keyValueOrd_eq_iff hfits hne).mp heq))
    rw [hlex, keyOrd_eq_valueOrd hfits]
    cases hord : keyValueOrd x y with
    | eq => exact absurd hord happart
    | _ => rfl

end Ord

end WebcomSdk.Datasync

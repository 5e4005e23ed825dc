import Mathlib.Tactic

/-!
Coverage in an order. Some elements are lit, some are masked, and a masked
element relies on a lit one above it: on a path, `above a p` reads "`a` is a
strict ancestor of `p`". Each rule says which change of the two sets keeps every
masked element covered.
-/

namespace WebcomSdk.Lib

variable {κ : Type*} {above : κ → κ → Prop}

/-- Every masked element has a lit one above it. -/
def Covered (above : κ → κ → Prop) (masked lit : κ → Prop) : Prop :=
  ∀ p, masked p → ∃ a, above a p ∧ lit a

variable {masked lit masked' lit' : κ → Prop}

theorem Covered.mono (h : Covered above masked lit) (hmasked : ∀ q, masked' q → masked q)
    (hlit : ∀ q, lit q → lit' q) : Covered above masked' lit' := by
  intro q hq
  obtain ⟨a, ha, hla⟩ := h q (hmasked q hq)
  exact ⟨a, ha, hlit a hla⟩

/-- Masking an element that already has a lit one above it. -/
theorem Covered.mask (h : Covered above masked lit) {p a : κ} (ha : above a p) (hlit : lit a)
    (hmasked : ∀ q, masked' q → masked q ∨ q = p) : Covered above masked' lit := by
  intro q hq
  rcases hmasked q hq with hq | rfl
  · exact h q hq
  · exact ⟨a, ha, hlit⟩

/-- An element that is lit may take over everything under it. -/
theorem Covered.takeOver (htrans : ∀ {a b c}, above a b → above b c → above a c)
    (h : Covered above masked lit) {p : κ} (hp : lit' p)
    (hmasked : ∀ q, masked' q → masked q ∨ above p q)
    (hlit : ∀ q, lit q → lit' q ∨ above p q) : Covered above masked' lit' := by
  intro q hq
  rcases hmasked q hq with hq | hq
  · obtain ⟨a, ha, hla⟩ := h q hq
    rcases hlit a hla with hla | hpa
    · exact ⟨a, ha, hla⟩
    · exact ⟨p, htrans hpa ha, hp⟩
  · exact ⟨p, hq, hp⟩

/-- An element goes out when what it alone covered finds another cover. -/
theorem Covered.release (h : Covered above masked lit) {p : κ}
    (hmasked : ∀ q, masked' q → (masked q ∧ ¬ above p q) ∨ ∃ a, above a q ∧ lit' a)
    (hlit : ∀ q, lit q → q ≠ p → lit' q) : Covered above masked' lit' := by
  intro q hq
  rcases hmasked q hq with ⟨hq, hpq⟩ | hcover
  · obtain ⟨a, ha, hla⟩ := h q hq
    exact ⟨a, ha, hlit a hla fun hap => hpq (hap ▸ ha)⟩
  · exact hcover

end WebcomSdk.Lib

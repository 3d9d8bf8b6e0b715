import Mathlib.Algebra.Field.Rat
import Mathlib.Tactic.NormNum
import ScriptTyping.Proofs.Decimal.NormalForm

/-!
# Decimals as rational numbers

The value of a decimal is its signed mantissa over a power of ten.  Decimals have one normal form
exactly when they have one value, zero with a sign and trailing zeros included.  Stripping zeros and
flipping the sign never leave the range of mantissas and scales, so neither has to round.

## Main definitions

* `Decimal.value` — the number that a decimal denotes.
* `Decimal.InRange` — mantissa and scale are representable.

## Main results

* `Decimal.normalize_eq_iff_value_eq` — one normal form for each value.
* `Decimal.value_neg`, `Decimal.InRange.neg`, `Decimal.InRange.normalize` — exactness.
-/

namespace ScriptTyping.Decimal

variable {a b d : Decimal}

/-- The number that a decimal denotes. -/
def value (d : Decimal) : ℚ := d.signed / 10 ^ d.scale

/-- The mantissa lies below its bound and the scale does not exceed the largest one. -/
structure InRange (d : Decimal) : Prop where
  mantissa : d.mantissa < mantissaBound
  scale : d.scale ≤ maxScale

theorem sameValue_iff_value_eq : a.SameValue b ↔ a.value = b.value := by
  have hpow (n : Nat) : (10 : ℚ) ^ n ≠ 0 := pow_ne_zero n (by norm_num)
  rw [value, value, div_eq_div_iff (hpow _) (hpow _), SameValue]
  exact_mod_cast Iff.rfl

/-- Decimals have one normal form exactly when they denote one number. -/
theorem normalize_eq_iff_value_eq : a.normalize = b.normalize ↔ a.value = b.value :=
  normalize_eq_iff.trans sameValue_iff_value_eq

theorem value_normalize (d : Decimal) : d.normalize.value = d.value :=
  sameValue_iff_value_eq.mp (sameValue_normalize d)

/-! ### Signs -/

theorem signed_neg (d : Decimal) : d.neg.signed = -d.signed := by
  obtain ⟨negative, mantissa, scale⟩ := d
  cases negative <;> simp [signed, neg]

/-- Flipping the sign negates the value exactly. -/
theorem value_neg (d : Decimal) : d.neg.value = -d.value := by
  rw [value, value, signed_neg, Int.cast_neg, neg_div]
  rfl

/-! ### Range -/

theorem InRange.neg (h : d.InRange) : d.neg.InRange := ⟨h.mantissa, h.scale⟩

/-- Stripping zeros makes neither the mantissa nor the scale larger. -/
theorem stripZeros_le (m s : Nat) : (stripZeros m s).1 ≤ m ∧ (stripZeros m s).2 ≤ s := by
  induction s generalizing m with
  | zero => exact ⟨le_rfl, le_rfl⟩
  | succ s ih =>
    rw [stripZeros]
    split
    · obtain ⟨hm, hs⟩ := ih (m / 10)
      exact ⟨hm.trans (Nat.div_le_self m 10), hs.trans (Nat.le_succ s)⟩
    · exact ⟨le_rfl, le_rfl⟩

theorem InRange.normalize (h : d.InRange) : d.normalize.InRange := by
  obtain ⟨hm, hs⟩ := stripZeros_le d.mantissa d.scale
  rw [Decimal.normalize]
  split
  · exact ⟨by decide, by decide⟩
  · exact ⟨hm.trans_lt h.mantissa, hs.trans h.scale⟩

end ScriptTyping.Decimal

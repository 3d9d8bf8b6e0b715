import Mathlib.Tactic.Linarith
import Mathlib.Tactic.Ring
import ScriptTyping.Decimal

/-!
# Values and normal forms of decimals

A decimal keeps its scale as written, so one value has many decimals.  Two of them have one value
if their signed mantissas agree once both are written at the two scales together.  Stripping the
trailing zeros keeps the value and leaves one decimal for each value: the one at the least scale,
without a sign if it is zero.

## Main definitions

* `Decimal.SameValue` — equality of values.
* `Decimal.IsNormal` — no trailing zeros, and zero is plain.

## Main results

* `Decimal.IsNormal.eq_of_sameValue` — a value has one normal form.
* `Decimal.normalize_eq_iff` — decimals have one normal form exactly when they have one value.
-/

namespace ScriptTyping.Decimal

/-- The decimals have one value. -/
def SameValue (a b : Decimal) : Prop := a.signed * 10 ^ b.scale = b.signed * 10 ^ a.scale

instance (a b : Decimal) : Decidable (a.SameValue b) :=
  inferInstanceAs (Decidable (a.signed * 10 ^ b.scale = b.signed * 10 ^ a.scale))

/-- No smaller scale would do, and zero carries no sign. -/
structure IsNormal (d : Decimal) : Prop where
  plainZero : d.mantissa = 0 → d = zero
  leastScale : d.scale = 0 ∨ ¬10 ∣ d.mantissa

variable {a b c : Decimal}

/-! ### Values -/

theorem SameValue.symm (h : a.SameValue b) : b.SameValue a := Eq.symm h

private theorem pow_ten_ne_zero (n : Nat) : (10 : Int) ^ n ≠ 0 := pow_ne_zero n (by decide)

theorem SameValue.trans (hab : a.SameValue b) (hbc : b.SameValue c) : a.SameValue c := by
  rw [SameValue] at hab hbc ⊢
  refine mul_right_cancel₀ (pow_ten_ne_zero b.scale) ?_
  calc a.signed * 10 ^ c.scale * 10 ^ b.scale
      = a.signed * 10 ^ b.scale * 10 ^ c.scale := by ring
    _ = b.signed * 10 ^ c.scale * 10 ^ a.scale := by rw [hab]; ring
    _ = c.signed * 10 ^ a.scale * 10 ^ b.scale := by rw [hbc]; ring

theorem natAbs_signed (d : Decimal) : d.signed.natAbs = d.mantissa := by
  rw [signed]
  split <;> omega

theorem SameValue.mantissa (h : a.SameValue b) :
    a.mantissa * 10 ^ b.scale = b.mantissa * 10 ^ a.scale := by
  have h' := congrArg Int.natAbs h
  rwa [Int.natAbs_mul, Int.natAbs_mul, Int.natAbs_pow, Int.natAbs_pow, natAbs_signed,
    natAbs_signed] at h'

/-- Decimals of one value that differ from zero have one sign. -/
theorem SameValue.negative (h : a.SameValue b) (ha : a.mantissa ≠ 0) (hb : b.mantissa ≠ 0) :
    a.negative = b.negative := by
  have hpow (n : Nat) : (0 : Int) < 10 ^ n := pow_pos (by decide) n
  have hsigns : 0 < a.signed ↔ 0 < b.signed := by
    rw [← mul_pos_iff_of_pos_right (hpow b.scale), h, mul_pos_iff_of_pos_right (hpow a.scale)]
  simp only [signed] at hsigns
  cases hna : a.negative <;> cases hnb : b.negative <;> simp only [hna, hnb] at hsigns ⊢ <;>
    simp only [Bool.false_eq_true, ↓reduceIte] at hsigns <;> omega

/-! ### Normal forms -/

/-- Stripped zeros are given back by the scale. -/
theorem stripZeros_fst_mul (m s : Nat) :
    (stripZeros m s).1 * 10 ^ s = m * 10 ^ (stripZeros m s).2 := by
  induction s generalizing m with
  | zero => rfl
  | succ s ih =>
    rw [stripZeros]
    split
    · rename_i hzero
      have hm : m / 10 * 10 = m := Nat.div_mul_cancel (Nat.dvd_of_mod_eq_zero hzero)
      rw [pow_succ, ← mul_assoc, ih, mul_right_comm, hm]
    · rfl

theorem stripZeros_snd (m s : Nat) :
    (stripZeros m s).2 = 0 ∨ ¬10 ∣ (stripZeros m s).1 := by
  induction s generalizing m with
  | zero => exact .inl rfl
  | succ s ih =>
    rw [stripZeros]
    split
    · exact ih _
    · rename_i hzero
      exact .inr fun hdvd => hzero (Nat.mod_eq_zero_of_dvd hdvd)

theorem sameValue_normalize (d : Decimal) : d.normalize.SameValue d := by
  have hstrip := congrArg (Nat.cast : Nat → Int) (stripZeros_fst_mul d.mantissa d.scale)
  push_cast at hstrip
  rw [normalize]
  split
  · rename_i hzero
    simp [SameValue, signed, zero, hzero]
  · simp only [SameValue, signed]
    cases d.negative
    · simpa using hstrip
    · simpa using hstrip

theorem isNormal_normalize (d : Decimal) : d.normalize.IsNormal := by
  have hstrip := stripZeros_fst_mul d.mantissa d.scale
  rw [normalize]
  split
  · exact ⟨fun _ => rfl, .inl rfl⟩
  · rename_i hne
    refine ⟨fun hzero => ?_, stripZeros_snd d.mantissa d.scale⟩
    replace hzero : (stripZeros d.mantissa d.scale).1 = 0 := hzero
    rw [hzero, zero_mul] at hstrip
    exact absurd hstrip.symm (mul_ne_zero hne (pow_ne_zero _ (by decide)))

/-- A normal form has the least scale among the decimals of its value. -/
private theorem IsNormal.scale_le (hb : b.IsNormal) (h : a.SameValue b) : b.scale ≤ a.scale := by
  by_contra hlt
  obtain ⟨k, hk⟩ : ∃ k, b.scale = a.scale + (k + 1) := ⟨b.scale - a.scale - 1, by omega⟩
  have hm := h.mantissa
  rw [hk, pow_add, ← mul_assoc, mul_right_comm] at hm
  have hm' : a.mantissa * 10 ^ (k + 1) = b.mantissa :=
    Nat.eq_of_mul_eq_mul_right (by positivity) hm
  rcases hb.leastScale with hzero | hdvd
  · omega
  · exact hdvd (hm' ▸ Dvd.dvd.mul_left (dvd_pow_self 10 (Nat.succ_ne_zero k)) _)

/-- A value has one normal form. -/
theorem IsNormal.eq_of_sameValue (ha : a.IsNormal) (hb : b.IsNormal) (h : a.SameValue b) :
    a = b := by
  have hscale : a.scale = b.scale := Nat.le_antisymm (ha.scale_le h.symm) (hb.scale_le h)
  have hmantissa : a.mantissa = b.mantissa := by
    have hm := h.mantissa
    rw [hscale] at hm
    exact Nat.eq_of_mul_eq_mul_right (by positivity) hm
  by_cases hzero : a.mantissa = 0
  · rw [ha.plainZero hzero, hb.plainZero (hmantissa ▸ hzero)]
  · have hsign := h.negative hzero (hmantissa ▸ hzero)
    obtain ⟨an, am, as⟩ := a
    obtain ⟨bn, bm, bs⟩ := b
    simp only at hsign hmantissa hscale
    rw [hsign, hmantissa, hscale]

/-- Decimals have one normal form exactly when they have one value. -/
theorem normalize_eq_iff : a.normalize = b.normalize ↔ a.SameValue b := by
  constructor
  · intro h
    exact (sameValue_normalize a).symm.trans (h ▸ sameValue_normalize b)
  · intro h
    exact (isNormal_normalize a).eq_of_sameValue (isNormal_normalize b)
      ((sameValue_normalize a).trans (h.trans (sameValue_normalize b).symm))

end ScriptTyping.Decimal

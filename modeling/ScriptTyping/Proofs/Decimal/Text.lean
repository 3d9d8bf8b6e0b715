import ScriptTyping.Constant
import ScriptTyping.Proofs.Decimal.Value

/-!
# The text of a decimal

A decimal is written with as many fractional digits as its scale says and with at least one digit in
front of them.  Reading the text gives the decimal back, except that zero loses its sign.  A normal
form has no such sign to lose, so the name of the property that a number selects reads back as the
normal form of the number, and numbers select one property exactly if they have one value.

## Main results

* `Decimal.ofString?_render` — what is written is read back.
* `ConstValue.ofString?_propertyName`, `ConstValue.propertyName_number_eq_iff` — the property that a
  number selects.
-/

namespace ScriptTyping

namespace Decimal

variable {d : Decimal} {negative : Bool} {m s width : Nat} {whole fraction : List Char}

/-! ### Digits -/

/-- Zeros in front do not count. -/
theorem digitsValue_padDigits : digitsValue (padDigits width (Nat.toDigits 10 m)) = m := by
  change Nat.ofDigitChars 10 (padDigits width (Nat.toDigits 10 m)) 0 = m
  rw [padDigits, Nat.ofDigitChars_append, Nat.ofDigitChars_replicate_zero, Nat.mul_zero,
    Nat.ofDigitChars_ten_toDigits]

theorem isDigit_of_mem_padDigits {c : Char} (h : c ∈ padDigits width (Nat.toDigits 10 m)) :
    c.isDigit = true := by
  rcases List.mem_append.mp h with h | h
  · rw [(List.mem_replicate.mp h).2]
    rfl
  · exact Nat.isDigit_of_mem_toDigits (by decide) (by decide) h

theorem le_length_padDigits : width ≤ (padDigits width (Nat.toDigits 10 m)).length := by
  rw [padDigits, List.length_append, List.length_replicate]
  omega

/-- The digits of an absolute value in front of the point and behind it. -/
theorem exists_renderAbs (m s : Nat) : ∃ whole fraction : List Char,
    (∀ c ∈ whole ++ fraction, c.isDigit = true) ∧ whole ≠ [] ∧ fraction.length = s ∧
      digitsValue (whole ++ fraction) = m ∧
      renderAbs m s = whole ++ if fraction = [] then [] else '.' :: fraction := by
  by_cases hzero : s = 0
  · refine ⟨Nat.toDigits 10 m, [], fun c hc => ?_, Nat.toDigits_ne_nil, hzero.symm, ?_, ?_⟩
    · rw [List.append_nil] at hc
      exact Nat.isDigit_of_mem_toDigits (by decide) (by decide) hc
    · rw [List.append_nil]
      exact Nat.ofDigitChars_ten_toDigits
    · rw [renderAbs, if_pos hzero, if_pos rfl, List.append_nil]
  · have hvalue : digitsValue (padDigits (s + 1) (Nat.toDigits 10 m)) = m := digitsValue_padDigits
    have hlength : s + 1 ≤ (padDigits (s + 1) (Nat.toDigits 10 m)).length := le_length_padDigits
    have hdigit : ∀ c ∈ padDigits (s + 1) (Nat.toDigits 10 m), c.isDigit = true :=
      fun c => isDigit_of_mem_padDigits
    rw [renderAbs, if_neg hzero]
    generalize padDigits (s + 1) (Nat.toDigits 10 m) = digits at hvalue hlength hdigit
    have hjoin : digits.take (digits.length - s) ++ digits.drop (digits.length - s) = digits :=
      List.take_append_drop ..
    have hfraction : (digits.drop (digits.length - s)).length = s := by
      rw [List.length_drop]
      omega
    refine ⟨digits.take (digits.length - s), digits.drop (digits.length - s), by rwa [hjoin], ?_,
      hfraction, by rwa [hjoin], ?_⟩
    · refine List.ne_nil_of_length_pos ?_
      rw [List.length_take]
      omega
    · rw [if_neg (List.ne_nil_of_length_pos (by omega))]

/-! ### Reading -/

/-- Digits, with a point in front of the fractional ones, are read as one number. -/
theorem ofChars?_digits (hdigits : ∀ c ∈ whole ++ fraction, c.isDigit = true) (hne : whole ≠ [])
    (hscale : fraction.length ≤ maxScale)
    (hbound : digitsValue (whole ++ fraction) < mantissaBound) :
    ofChars? negative (whole ++ if fraction = [] then [] else '.' :: fraction) =
      some ⟨negative && digitsValue (whole ++ fraction) ≠ 0, digitsValue (whole ++ fraction),
        fraction.length⟩ := by
  have hwhole : ∀ c ∈ whole, c.isDigit = true := fun c hc => hdigits c (List.mem_append_left _ hc)
  have hempty : whole.isEmpty = false := List.isEmpty_eq_false_iff.mpr hne
  rw [ofChars?, List.takeWhile_append_of_pos hwhole, List.dropWhile_append_of_pos hwhole]
  cases fraction with
  | nil =>
    rw [List.append_nil] at hbound
    simp [hempty, hbound]
  | cons first rest =>
    have hfraction : (first :: rest).all Char.isDigit = true :=
      List.all_eq_true.mpr fun c hc => hdigits c (List.mem_append_right _ hc)
    rw [if_neg (List.cons_ne_nil first rest), List.takeWhile_cons_of_neg (by decide),
      List.dropWhile_cons_of_neg (by decide), List.append_nil]
    simp only [hempty, hfraction, List.isEmpty_cons, Bool.not_true, Bool.or_self,
      Bool.false_eq_true, if_false, if_pos (And.intro hscale hbound)]

/-- The digits of an absolute value are read back. -/
theorem ofChars?_renderAbs (hm : m < mantissaBound) (hs : s ≤ maxScale) :
    ofChars? negative (renderAbs m s) = some ⟨negative && m ≠ 0, m, s⟩ := by
  obtain ⟨whole, fraction, hdigits, hne, rfl, rfl, htext⟩ := exists_renderAbs m s
  rw [htext, ofChars?_digits hdigits hne hs hm]

theorem isDigit_head_renderAbs {c : Char} {rest : List Char} (h : renderAbs m s = c :: rest) :
    c.isDigit = true := by
  obtain ⟨whole, fraction, hdigits, hne, -, -, htext⟩ := exists_renderAbs m s
  obtain _ | ⟨first, whole⟩ := whole
  · exact absurd rfl hne
  · cases htext.symm.trans h
    exact hdigits c (List.mem_cons_self ..)

/-- What is written is read back, but zero loses its sign. -/
theorem ofString?_render (h : d.InRange) :
    ofString? d.render = some { d with negative := d.negative && d.mantissa ≠ 0 } := by
  obtain ⟨negative, m, s⟩ := d
  have hread (negative : Bool) : ofChars? negative (renderAbs m s) =
      some ⟨negative && m ≠ 0, m, s⟩ := ofChars?_renderAbs h.mantissa h.scale
  rw [ofString?, render, String.toList_ofList]
  cases negative with
  | true => exact hread true
  | false =>
    rw [if_neg Bool.false_ne_true, List.nil_append]
    split
    · rename_i rest htext
      exact absurd (isDigit_head_renderAbs htext) (by decide)
    · rename_i rest htext
      exact absurd (isDigit_head_renderAbs htext) (by decide)
    · exact hread false

end Decimal

namespace ConstValue

variable {a b : Decimal}

/-- The property that a number selects is named by the text of its normal form. -/
theorem ofString?_propertyName (h : a.InRange) :
    Decimal.ofString? (propertyName (.number a)) = some a.normalize := by
  rw [propertyName, Decimal.ofString?_render h.normalize]
  by_cases hzero : a.normalize.mantissa = 0
  · rw [a.isNormal_normalize.plainZero hzero]
    rfl
  · simp [hzero]

/-- Numbers select one property exactly if they have one value. -/
theorem propertyName_number_eq_iff (ha : a.InRange) (hb : b.InRange) :
    propertyName (.number a) = propertyName (.number b) ↔ a.value = b.value := by
  rw [← Decimal.normalize_eq_iff_value_eq]
  constructor
  · intro h
    have hread := (ofString?_propertyName ha).symm.trans (h ▸ ofString?_propertyName hb)
    exact Option.some.inj hread
  · intro h
    rw [propertyName, propertyName, h]

end ConstValue

end ScriptTyping

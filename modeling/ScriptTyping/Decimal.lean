/-!
# Decimal numbers

A decimal is a sign, a mantissa below `2 ^ 96` and a scale up to `28`; its value is the mantissa
divided by ten to the power of the scale.  The scale is kept as written, so `1.50` and `1.5` are
two decimals of one value, and zero may carry a sign.

## Main definitions

* `Decimal.ofString?`, `Decimal.render` — reading and writing with all fractional digits.
* `Decimal.normalize` — the representative without trailing zeros.
* `Decimal.neg`, `Decimal.checkedAdd` — negation and addition.
-/

namespace ScriptTyping

/-- A decimal number with an explicit scale. -/
structure Decimal where
  /-- The sign bit, which zero may carry too. -/
  negative : Bool
  /-- The digits as one number. -/
  mantissa : Nat
  /-- How many of the digits are fractional. -/
  scale : Nat
  deriving DecidableEq, Hashable, Repr, Inhabited

namespace Decimal

/-- Mantissas lie below this bound. -/
def mantissaBound : Nat := Nat.pow 2 96

/-- The largest scale. -/
def maxScale : Nat := 28

/-- Zero without a sign at scale zero. -/
def zero : Decimal := ⟨false, 0, 0⟩

/-- Strips trailing zeros of the mantissa while the scale allows it. -/
def stripZeros : Nat → Nat → Nat × Nat
  | mantissa, 0 => (mantissa, 0)
  | mantissa, scale + 1 =>
    if mantissa % 10 = 0 then stripZeros (mantissa / 10) scale else (mantissa, scale + 1)

/-- The same value without trailing fractional zeros; every zero becomes plain `0`. -/
def normalize (d : Decimal) : Decimal :=
  if d.mantissa = 0 then zero
  else
    let (mantissa, scale) := stripZeros d.mantissa d.scale
    ⟨d.negative, mantissa, scale⟩

/-- Flips the sign, also that of zero. -/
def neg (d : Decimal) : Decimal := { d with negative := !d.negative }

/-- The mantissa with its sign. -/
def signed (d : Decimal) : Int := if d.negative then -(d.mantissa : Int) else d.mantissa

/-- The mantissa with its sign, at a scale not below the own one. -/
def signedAt (d : Decimal) (scale : Nat) : Int := d.signed * Nat.pow 10 (scale - d.scale)

/-- The quotient rounded to the nearest number, a half going to the even neighbour. -/
def divHalfEven (n divisor : Nat) : Nat :=
  let quotient := n / divisor
  let twice := 2 * (n % divisor)
  if divisor < twice then quotient + 1
  else if twice = divisor then quotient + quotient % 2
  else quotient

/-- Gives up fractional digits, as few as possible and at most `scale` of them, until the rounded
mantissa lies below the bound.  `dropped` digits are given up already. -/
def fit (mantissa : Nat) (dropped : Nat) : Nat → Option (Nat × Nat)
  | 0 =>
    let rounded := divHalfEven mantissa (Nat.pow 10 dropped)
    if rounded < mantissaBound then some (rounded, 0) else none
  | scale + 1 =>
    let rounded := divHalfEven mantissa (Nat.pow 10 dropped)
    if rounded < mantissaBound then some (rounded, scale + 1)
    else fit mantissa (dropped + 1) scale

/-- The sum at the larger of the two scales, with as few fractional digits given up as the bound
on mantissas asks for; nothing when the integral part alone is too large.  Adding to a zero gives
the other summand unchanged. -/
def checkedAdd (a b : Decimal) : Option Decimal :=
  if a.mantissa = 0 then some b
  else if b.mantissa = 0 then some a
  else
    let scale := max a.scale b.scale
    let sum := a.signedAt scale + b.signedAt scale
    (fit sum.natAbs 0 scale).map fun (mantissa, scale) => ⟨sum < 0, mantissa, scale⟩

/-- Digits padded with zeros on the left to at least `width` places. -/
def padDigits (width : Nat) (digits : List Char) : List Char :=
  List.replicate (width - digits.length) '0' ++ digits

/-- The digits of the absolute value, all fractional places written. -/
def renderAbs (mantissa scale : Nat) : List Char :=
  if scale = 0 then Nat.toDigits 10 mantissa
  else
    let digits := padDigits (scale + 1) (Nat.toDigits 10 mantissa)
    let cut := digits.length - scale
    digits.take cut ++ '.' :: digits.drop cut

/-- The text of a decimal: a minus if the sign bit is set, then exactly `scale` fractional digits.
-/
def render (d : Decimal) : String :=
  String.ofList ((if d.negative then ['-'] else []) ++ renderAbs d.mantissa d.scale)

/-- The number that a list of decimal digits denotes. -/
def digitsValue (digits : List Char) : Nat :=
  digits.foldl (fun n c => 10 * n + (c.toNat - '0'.toNat)) 0

/-- Reads digits with an optional fractional part. -/
def ofChars? (negative : Bool) (text : List Char) : Option Decimal :=
  let whole := text.takeWhile Char.isDigit
  let finish (fraction : List Char) : Option Decimal :=
    let mantissa := digitsValue (whole ++ fraction)
    if fraction.length ≤ maxScale ∧ mantissa < mantissaBound then
      some ⟨negative && mantissa ≠ 0, mantissa, fraction.length⟩
    else none
  if whole.isEmpty then none
  else
    match text.dropWhile Char.isDigit with
    | [] => finish []
    | '.' :: fraction =>
      if fraction.isEmpty || !fraction.all Char.isDigit then none else finish fraction
    | _ => none

/-- Reads an optional sign, digits and an optional fractional part.  The scale is the number of
fractional digits written, and zero loses its sign. -/
def ofString? (text : String) : Option Decimal :=
  match text.toList with
  | '-' :: rest => ofChars? true rest
  | '+' :: rest => ofChars? false rest
  | rest => ofChars? false rest

end Decimal

end ScriptTyping

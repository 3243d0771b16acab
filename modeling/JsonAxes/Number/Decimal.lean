import JsonAxes.Number.Basic

/-!
# Decimals and the numbers they round to

A decimal is a natural number of digits scaled by a power of ten. `Decimal.round` gives the
magnitude nearest to it, a half going to the even neighbour; what lies beyond the largest finite
magnitude by half a step or more is infinite. `ofText?` reads a written number: it splits the text
into sign, digits and exponent and rounds once, so that no digit is lost on the way.
-/

set_option autoImplicit false

namespace JsonAxes

/-! ## Rounding a quotient -/

namespace Number

/-- The natural nearest to `above / below`, a half going to the even one. -/
def roundHalfEven (above below : Nat) : Nat :=
  let whole := above / below
  let twice := 2 * (above % below)
  if below < twice ∨ (twice = below ∧ whole % 2 = 1) then whole + 1 else whole

/-- The power of two of the leading bit of a positive quotient. -/
def leadingPower (above below : Nat) : Int :=
  let guess : Int := (above.log2 : Int) - below.log2
  if below * Nat.pow 2 guess.toNat ≤ above * Nat.pow 2 (-guess).toNat then guess else guess - 1

/-- The magnitude nearest to a positive quotient. A significand that rounds up to the next power
of two carries into the exponent by itself. -/
def roundQuotient (above below : Nat) : Nat :=
  -- the weight of the last bit that is kept; it does not fall below that of the least magnitude
  let scale := max (leadingPower above below - 52) (-1074)
  let significand :=
    roundHalfEven (above * Nat.pow 2 (-scale).toNat) (below * Nat.pow 2 scale.toNat)
  min ((scale + 1074).toNat * hiddenBit + significand) infinity

end Number

/-- The decimal `digits * 10 ^ exponent`. -/
structure Decimal where
  digits : Nat
  exponent : Int
  deriving DecidableEq, Repr, Inhabited

namespace Decimal

/-- The magnitude nearest to a decimal. Exponents so large or so small that the digits cannot
bring the value back into range are settled before any power is computed. -/
def round (d : Decimal) : Nat :=
  if d.digits = 0 then 0
  else if 400 < d.exponent then Number.infinity
  else if d.exponent < -400 - (d.digits.log2 : Int) then 0
  else
    Number.roundQuotient (d.digits * Nat.pow 10 d.exponent.toNat) (Nat.pow 10 (-d.exponent).toNat)

end Decimal

namespace Number

/-- The number nearest to a decimal, with a sign of its own. -/
def ofDecimal (negative : Bool) (d : Decimal) : Number := ofParts negative d.round

/-- The number nearest to a natural. -/
def ofNat (n : Nat) : Number := ofDecimal false ⟨n, 0⟩

/-- The number nearest to an integer. -/
def ofInt (i : Int) : Number := ofDecimal (i < 0) ⟨i.natAbs, 0⟩

/-! ## Reading -/

/-- The value of a decimal digit. -/
def digitValue (c : Char) : Nat := c.toNat - '0'.toNat

/-- The natural that a run of decimal digits spells. -/
def digitsValue (cs : List Char) : Nat := cs.foldl (fun n c => 10 * n + digitValue c) 0

/-- The sign in front of a text, and what follows it. -/
def splitSign : List Char → Bool × List Char
  | '-' :: rest => (true, rest)
  | '+' :: rest => (false, rest)
  | rest => (false, rest)

/-- An exponent with nothing behind it; no text at all is the exponent zero. -/
def exponentOfText? : List Char → Option Int
  | [] => some 0
  | c :: rest =>
    if c = 'e' ∨ c = 'E' then
      let (negative, digits) := splitSign rest
      if digits ≠ [] ∧ digits.all Char.isDigit then
        let size : Int := digitsValue digits
        some (if negative then -size else size)
      else none
    else none

/-- A decimal without sign: digits on at least one side of an optional point, then an optional
exponent. -/
def decimalOfText? (cs : List Char) : Option Decimal :=
  let whole := cs.takeWhile Char.isDigit
  let (fraction, rest) := match cs.dropWhile Char.isDigit with
    | '.' :: rest => (rest.takeWhile Char.isDigit, rest.dropWhile Char.isDigit)
    | rest => ([], rest)
  let digits := whole ++ fraction
  if digits = [] then none
  else (exponentOfText? rest).map fun e => ⟨digitsValue digits, e - fraction.length⟩

/-- The number nearest to a written decimal. The words for infinity and for no number are read
too, in any case, with or without a sign. -/
def ofText? (text : List Char) : Option Number :=
  let (negative, body) := splitSign text
  let word := body.map Char.toLower
  if word = "inf".toList ∨ word = "infinity".toList then some (ofParts negative infinity)
  else if word = "nan".toList then some nan
  else (decimalOfText? body).map (ofDecimal negative)

/-! ## Rounding lands on a magnitude -/

theorem roundQuotient_le_infinity (above below : Nat) : roundQuotient above below ≤ infinity :=
  Nat.min_le_right _ _

end Number

namespace Decimal

theorem round_le_infinity (d : Decimal) : d.round ≤ Number.infinity := by
  unfold round
  split
  · exact Nat.zero_le _
  · split
    · exact Nat.le_refl _
    · split
      · exact Nat.zero_le _
      · exact Number.roundQuotient_le_infinity _ _

end Decimal

namespace Number

theorem magnitude_ofDecimal (negative : Bool) (d : Decimal) :
    (ofDecimal negative d).magnitude = d.round :=
  magnitude_ofParts (Nat.lt_of_le_of_lt d.round_le_infinity (by decide))

theorem isNegative_ofDecimal (negative : Bool) (d : Decimal) :
    (ofDecimal negative d).isNegative = negative :=
  isNegative_ofParts

end Number

end JsonAxes

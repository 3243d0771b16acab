import JsonAxes.Number.Shortest

/-!
# Written numbers

A format says how the digits of a shortest decimal are laid out: which exponents are written
positionally, whether a whole number keeps a zero behind the point, how a tie between two
shortest decimals is broken. A number that is not finite has no digits; what stands for it is the
writer's affair.

Two formats are used: `plain`, positional throughout, for printed values, and `scientific`
for exchange with other programs, which leaves positional notation for very large and very small
numbers.
-/

set_option autoImplicit false

namespace JsonAxes

/-- How the digits of a number are laid out. -/
structure NumberFormat where
  /-- Which decimal exponents of the leading digit are written positionally. -/
  isPositional : Int → Bool
  /-- Whether a whole number keeps a point and a zero. -/
  keepsPointZero : Bool
  /-- Which of two equally near shortest decimals is written. -/
  tie : Tie

namespace NumberFormat

/-- Positional whatever the size, and no point in a whole number. -/
def plain : NumberFormat where
  isPositional _ := true
  keepsPointZero := false
  tie := .awayFromZero

/-- Positional for leading exponents from -5 to 15, always with a point; otherwise one digit, the
others behind a point, and a signed exponent. -/
def scientific : NumberFormat where
  isPositional e := -5 ≤ e ∧ e ≤ 15
  keepsPointZero := true
  tie := .toEven

/-- The digits of a natural. -/
def digitChars (n : Nat) : List Char := Nat.toDigits 10 n

/-- Digits with the point `fraction` places before their end; zeros fill up what is missing. -/
def withPoint (digits : List Char) (fraction : Nat) : List Char :=
  if digits.length ≤ fraction then
    '0' :: '.' :: (List.replicate (fraction - digits.length) '0' ++ digits)
  else
    digits.take (digits.length - fraction) ++ '.' :: digits.drop (digits.length - fraction)

/-- A decimal in positional notation. -/
def positional (f : NumberFormat) (d : Decimal) : List Char :=
  let digits := digitChars d.digits
  if 0 ≤ d.exponent then
    digits ++ List.replicate d.exponent.toNat '0' ++ (if f.keepsPointZero then ['.', '0'] else [])
  else withPoint digits (-d.exponent).toNat

/-- A decimal as one digit, a fraction and an exponent. -/
def exponential (d : Decimal) : List Char :=
  let digits := digitChars d.digits
  let leading : Int := d.exponent + digits.length - 1
  let fraction := digits.drop 1
  digits.take 1 ++ (if fraction.isEmpty then [] else '.' :: fraction)
    ++ ['e', if leading < 0 then '-' else '+'] ++ digitChars leading.natAbs

/-- A finite magnitude. -/
def magnitude (f : NumberFormat) (m : Nat) : List Char :=
  if m = 0 then f.positional ⟨0, 0⟩
  else
    let d := Decimal.shortest f.tie m
    if f.isPositional (d.exponent + Decimal.length d.digits - 1) then f.positional d
    else exponential d

/-- A finite number; a negative zero keeps its sign. -/
def write (f : NumberFormat) (n : Number) : List Char :=
  (if n.isNegative then ['-'] else []) ++ f.magnitude n.magnitude

end NumberFormat

end JsonAxes

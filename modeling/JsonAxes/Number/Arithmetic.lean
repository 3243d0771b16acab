import JsonAxes.Number.Decimal

/-!
# Multiplication and division

Products and quotients of finite magnitudes, rounded to the nearest magnitude. The exact result is
a quotient of naturals, which is rounded once.
-/

set_option autoImplicit false

namespace JsonAxes.Number

/-- The magnitude nearest to the product of two. -/
def mulMagnitude (a b : Nat) : Nat :=
  if a = 0 ∨ b = 0 then 0
  else
    let (p, q) := quotient a
    let (r, s) := quotient b
    roundQuotient (p * r) (q * s)

/-- The magnitude nearest to the quotient of two, the second not zero. -/
def divMagnitude (a b : Nat) : Nat :=
  if a = 0 then 0
  else
    let (p, q) := quotient a
    let (r, s) := quotient b
    roundQuotient (p * s) (q * r)

end JsonAxes.Number

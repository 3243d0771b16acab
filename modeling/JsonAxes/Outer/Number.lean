import JsonAxes.Exchange.Basic
import JsonAxes.Number.Arithmetic

/-!
# Reading exchanged numbers

How the reader in `JsonAxes.Outer.Reader` reads a number, by the letter of the standard. A whole
number of 64 bits is an integer. Any other is read quickly rather than exactly: its digits are
gathered in 64 bits, digits that do not fit are counted but not kept, and the result is multiplied
or divided by a power of ten, rounding at each operation. It may therefore differ from the nearest
number in its last bits. What comes out infinite is refused.
-/

set_option autoImplicit false

namespace JsonAxes.Outer

open Exchange

/-- The largest significand that is kept. -/
def significandLimit : Nat := 0xFFFFFFFFFFFFFFFF

/-- Digits gathered so far: their value, and how many more were seen that did not fit. -/
structure Gathered where
  significand : Nat
  dropped : Nat
  deriving DecidableEq, Repr

/-- Gathers digits as long as they fit; from the first that does not fit on they are only
counted. -/
def gather (significand : Nat) : List Char → Gathered
  | [] => ⟨significand, 0⟩
  | c :: rest =>
    let more := 10 * significand + Number.digitValue c
    if more ≤ significandLimit then gather more rest else ⟨significand, rest.length + 1⟩

/-- The largest exponent of ten by which a magnitude is scaled at once. -/
def powerLimit : Nat := 308

/-- The magnitude of a power of ten. -/
def powerOfTen (exponent : Nat) : Nat := Decimal.round ⟨1, exponent⟩

/-- A magnitude divided by the power of ten of a negative exponent, in steps that are rounded one
by one. -/
def scaleDown (magnitude exponent : Nat) : Nat :=
  if exponent ≤ powerLimit then Number.divMagnitude magnitude (powerOfTen exponent)
  else if magnitude = 0 then 0
  else scaleDown (Number.divMagnitude magnitude (powerOfTen powerLimit)) (exponent - powerLimit)
  termination_by exponent
  decreasing_by simp [powerLimit] at *; omega

/-- A magnitude multiplied by the power of ten of an exponent; too large a result is refused. -/
def scaleUp? (magnitude exponent : Nat) : Option Nat :=
  if exponent ≤ powerLimit then
    (some (Number.mulMagnitude magnitude (powerOfTen exponent))).filter (· < Number.infinity)
  else if magnitude = 0 then some 0
  else none

/-- The number of a sign, a significand and an exponent of ten. -/
def scaled? (negative : Bool) (significand : Nat) (exponent : Int) : Option Number :=
  let magnitude := (Number.ofNat significand).magnitude
  let result := if 0 ≤ exponent then scaleUp? magnitude exponent.toNat
    else some (scaleDown magnitude (-exponent).toNat)
  result.map (Number.ofParts negative)

/-- A whole number: an integer if it has 64 bits, unless it is a negative zero. -/
def wholeNumber (negative : Bool) (size : Nat) : Exchange :=
  if negative then
    if 0 < size ∧ size ≤ 0x8000000000000000 then integer (-(size : Int))
    else float (Number.ofParts true (Number.ofNat size).magnitude)
  else integer size

/-- The exponent at the front of a text and what follows it. -/
def exponent? : List Char → Option (Int × List Char)
  | [] => some (0, [])
  | c :: rest =>
    if c = 'e' ∨ c = 'E' then
      let (negative, rest) := Number.splitSign rest
      let digits := rest.takeWhile Char.isDigit
      if digits.isEmpty then none
      else
        let size : Int := Number.digitsValue digits
        some (if negative then -size else size, rest.dropWhile Char.isDigit)
    else some (0, c :: rest)

/-- The number that some whole digits begin, and what follows it. The fraction goes on gathering
where the whole digits stopped. -/
def numberWith? (negative : Bool) (whole rest : List Char) : Option (Exchange × List Char) :=
  let front := gather 0 whole
  let scaledTo (significand : Nat) (exponent : Int) (rest : List Char) :=
    (scaled? negative significand exponent).map fun n => (float n, rest)
  match rest with
  | '.' :: rest =>
    let fraction := rest.takeWhile Char.isDigit
    if fraction.isEmpty then none
    else do
      -- fraction digits that fit move the point left, whole digits that did not fit move it right
      let all := gather front.significand fraction
      let kept := fraction.length - all.dropped
      let (e, rest) ← exponent? (rest.dropWhile Char.isDigit)
      scaledTo all.significand (front.dropped - kept + e) rest
  | c :: _ =>
    if c = 'e' ∨ c = 'E' then do
      let (e, rest) ← exponent? rest
      scaledTo front.significand (front.dropped + e) rest
    else if front.dropped = 0 then some (wholeNumber negative front.significand, rest)
    else scaledTo front.significand front.dropped rest
  | [] =>
    if front.dropped = 0 then some (wholeNumber negative front.significand, rest)
    else scaledTo front.significand front.dropped rest

/-- The number at the front of a text and what follows it. A zero is not followed by further
digits. -/
def number? (cs : List Char) : Option (Exchange × List Char) :=
  let (negative, rest) := match cs with
    | '-' :: rest => (true, rest)
    | rest => (false, rest)
  let whole := rest.takeWhile Char.isDigit
  if whole.isEmpty ∨ (whole.head? = some '0' ∧ 1 < whole.length) then none
  else numberWith? negative whole (rest.dropWhile Char.isDigit)

end JsonAxes.Outer

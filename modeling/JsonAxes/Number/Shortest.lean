import JsonAxes.Number.Decimal

/-!
# Shortest decimals

The shortest decimal of a magnitude is the one with the fewest digits that rounds back to it. For
one digit, two digits and so on up to seventeen, the two neighbours of the magnitude on that
decimal grid are tried; the first grid with a hit wins, and of two hits the nearer one. Which of
two equally near ones is taken is left to the format, as a `Tie`.
-/

set_option autoImplicit false

namespace JsonAxes

/-- Which of two equally near decimals is taken. -/
inductive Tie where
  | toEven
  | awayFromZero
  deriving DecidableEq, Repr

namespace Decimal

/-- Whether a decimal reads as the given magnitude. -/
def readsAs (d : Decimal) (magnitude : Nat) : Bool := d.round == magnitude

/-- The number of digits of a natural; zero has one. -/
def length (n : Nat) : Nat := (Nat.toDigits 10 n).length

/-- The least power of ten above a positive finite magnitude, as an exponent. -/
def scale (magnitude : Nat) : Int :=
  let (above, below) := Number.quotient magnitude
  -- the least magnitude is above `10 ^ -400`, so the scaled quotient is not zero
  (length (above * Nat.pow 10 400 / below) : Int) - 400

/-- The decimal on the grid of `10 ^ exponent` that reads as a magnitude, the nearer one if both
neighbours do. -/
def onGrid? (tie : Tie) (magnitude : Nat) (exponent : Int) : Option Decimal :=
  let (a, b) := Number.quotient magnitude
  let above := a * Nat.pow 10 (-exponent).toNat
  let below := b * Nat.pow 10 exponent.toNat
  let low : Decimal := ⟨above / below, exponent⟩
  let high : Decimal := ⟨above / below + 1, exponent⟩
  match low.readsAs magnitude, high.readsAs magnitude with
  | true, true =>
    let twice := 2 * (above % below)
    if twice < below then some low
    else if below < twice then some high
    else match tie with
      | .awayFromZero => some high
      | .toEven => if low.digits % 2 = 0 then some low else some high
  | true, false => some low
  | false, true => some high
  | false, false => none

/-- A finite magnitude as a decimal, digit for digit. -/
def exact (magnitude : Nat) : Decimal :=
  let m := Number.significand magnitude
  let q := Number.power magnitude
  if 0 ≤ q then ⟨m * Nat.pow 2 q.toNat, 0⟩ else ⟨m * Nat.pow 5 (-q).toNat, q⟩

/-- Moves the trailing zeros of the digits into the exponent. -/
def strip (d : Decimal) : Decimal :=
  if 0 < d.digits ∧ d.digits % 10 = 0 then strip ⟨d.digits / 10, d.exponent + 1⟩ else d
  termination_by d.digits
  decreasing_by omega

/-- The shortest decimal that reads as a positive finite magnitude. -/
def shortest (tie : Tie) (magnitude : Nat) : Decimal :=
  let top := scale magnitude
  let found := (List.range 17).findSome? fun (n : Nat) =>
    onGrid? tie magnitude (top - 1 - (n : Nat))
  strip (found.getD (exact magnitude))

/-- What a grid yields reads as the magnitude it was searched for. -/
theorem readsAs_of_onGrid? {tie : Tie} {magnitude : Nat} {exponent : Int} {d : Decimal}
    (h : onGrid? tie magnitude exponent = some d) : d.readsAs magnitude = true := by
  unfold onGrid? at h
  simp only at h
  split at h
  · next hl hh =>
    split at h
    · cases h; exact hl
    · split at h
      · cases h; exact hh
      · cases tie
        · simp only at h
          split at h <;> cases h
          · exact hl
          · exact hh
        · cases h; exact hh
  · next hl _ => cases h; exact hl
  · next _ hh => cases h; exact hh
  · cases h

end Decimal

end JsonAxes

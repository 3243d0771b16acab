/-!
# Numbers

A number is a 64-bit binary floating-point number, held as its word. The word's lower 63 bits are
the *magnitude*: magnitudes are ordered as the numbers they stand for, `infinity` is the magnitude
of the two infinities, and every magnitude above it is a NaN. A finite magnitude stands for
`significand * 2 ^ power`, exactly.

This file holds the word, its parts, and equality as numbers (`same`), under which the two
zeros are equal and a NaN differs from itself.
-/

set_option autoImplicit false

namespace JsonAxes

/-- A 64-bit binary floating-point number. -/
structure Number where
  /-- Sign, exponent and fraction, from the highest bit down. -/
  bits : UInt64
  deriving DecidableEq, Repr, Inhabited

namespace Number

/-! ## Magnitudes -/

/-- The magnitude of an infinity; the finite magnitudes lie below it. -/
def infinity : Nat := 0x7FF0000000000000

/-- The weight of the sign bit, above every magnitude. -/
def signWeight : Nat := 0x8000000000000000

/-- The weight of the hidden bit: the significands of all but the smallest magnitudes lie between
it and its double, and magnitudes whose exponents differ by one are this far apart. -/
def hiddenBit : Nat := 0x10000000000000

/-- The significand of a finite magnitude, with the hidden bit. -/
def significand (magnitude : Nat) : Nat :=
  if magnitude < hiddenBit then magnitude else hiddenBit + magnitude % hiddenBit

/-- The power of two that scales the significand of a finite magnitude. -/
def power (magnitude : Nat) : Int :=
  if magnitude < hiddenBit then -1074 else (magnitude / hiddenBit : Nat) - 1075

/-- A finite magnitude as a quotient of two naturals. -/
def quotient (magnitude : Nat) : Nat × Nat :=
  (significand magnitude * Nat.pow 2 (power magnitude).toNat, Nat.pow 2 (-power magnitude).toNat)

/-! ## Parts of the word -/

/-- The word without its sign. -/
def magnitude (n : Number) : Nat := n.bits.toNat % signWeight

/-- Whether the sign bit is set; a negative zero has it set too. -/
def isNegative (n : Number) : Bool := signWeight ≤ n.bits.toNat

/-- The number of a sign and a magnitude. -/
def ofParts (negative : Bool) (magnitude : Nat) : Number :=
  ⟨UInt64.ofNat ((if negative then signWeight else 0) + magnitude % signWeight)⟩

/-- Whether the word is no number at all. -/
def isNaN (n : Number) : Bool := infinity < n.magnitude

/-- Whether the number is neither infinite nor a NaN. -/
def isFinite (n : Number) : Bool := n.magnitude < infinity

/-- A quiet NaN. -/
def nan : Number := ofParts false 0x7FF8000000000000

/-- Positive zero. -/
def zero : Number := ofParts false 0

/-- Equality as numbers: the zeros are equal, and a NaN equals nothing. -/
def same (a b : Number) : Bool :=
  !a.isNaN && !b.isNaN && (a.bits == b.bits || (a.magnitude == 0 && b.magnitude == 0))

/-- The integer a number is equal to, if there is one. -/
def toInt? (n : Number) : Option Int :=
  if n.isFinite then
    let (above, below) := quotient n.magnitude
    if above % below = 0 then
      let size : Int := (above / below : Nat)
      some (if n.isNegative then -size else size)
    else none
  else none

/-! ## The parts determine the word -/

theorem magnitude_ofParts {negative : Bool} {m : Nat} (h : m < signWeight) :
    (ofParts negative m).magnitude = m := by
  have h' : m < 0x8000000000000000 := h
  cases negative <;> simp only [ofParts, magnitude, signWeight, UInt64.toNat_ofNat',
    Bool.false_eq_true, if_true, if_false] <;> omega

theorem isNegative_ofParts {negative : Bool} {m : Nat} :
    (ofParts negative m).isNegative = negative := by
  cases negative <;> simp only [ofParts, isNegative, signWeight, UInt64.toNat_ofNat',
    Bool.false_eq_true, if_true, if_false, decide_eq_true_eq, decide_eq_false_iff_not] <;> omega

/-- A number is the number of its parts. -/
theorem ofParts_isNegative_magnitude (n : Number) :
    ofParts n.isNegative n.magnitude = n := by
  obtain ⟨w⟩ := n
  have hw : w.toNat < 0x10000000000000000 := w.toNat_lt
  refine congrArg Number.mk (UInt64.toNat_inj.mp ?_)
  by_cases hn : 0x8000000000000000 ≤ w.toNat
  · have h : (⟨w⟩ : Number).isNegative = true := decide_eq_true hn
    simp only [h, if_true, magnitude, signWeight, UInt64.toNat_ofNat']
    omega
  · have h : (⟨w⟩ : Number).isNegative = false := decide_eq_false hn
    simp only [h, Bool.false_eq_true, if_false, magnitude, signWeight, UInt64.toNat_ofNat']
    omega

end Number

end JsonAxes

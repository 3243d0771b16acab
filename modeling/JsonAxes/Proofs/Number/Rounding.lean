import JsonAxes.Number.Shortest
import Mathlib.Data.Int.Log
import Mathlib.Data.Nat.Cast.Field
import Mathlib.Data.Rat.Floor
import Mathlib.Tactic.FieldSimp
import Mathlib.Tactic.NormNum
import Mathlib.Tactic.Positivity

/-!
# What rounding depends on

`Number.roundQuotient` computes on naturals, and `Decimal.round` settles extreme exponents before
it. Both depend on nothing but the rational number that is rounded: the power of its leading bit
is a logarithm (`leadingPower_eq_log`), and the shortcuts for extreme exponents agree with what
would be computed (`round_eq_roundQuotient`). Hence decimals of the same value round to the same
magnitude (`Decimal.round_congr`), and what has the value of a magnitude rounds to that magnitude
(`Decimal.round_of_value`).
-/

set_option autoImplicit false

namespace JsonAxes

/-- A power of an integer and the powers of its two parts. -/
theorem zpow_mul_pow_toNat {x : ℚ} (hx : x ≠ 0) (p : ℤ) :
    x ^ p * x ^ (-p).toNat = x ^ p.toNat := by
  rw [← zpow_natCast, ← zpow_natCast, ← zpow_add₀ hx]
  congr 1
  omega

namespace Number

/-! ## Rounding to a natural -/

theorem roundHalfEven_mul_left {c : Nat} (hc : 0 < c) (above below : Nat) :
    roundHalfEven (c * above) (c * below) = roundHalfEven above below := by
  have htwice : 2 * (c * (above % below)) = c * (2 * (above % below)) := Nat.mul_left_comm _ _ _
  simp only [roundHalfEven, Nat.mul_div_mul_left _ _ hc, Nat.mul_mod_mul_left, htwice,
    Nat.mul_lt_mul_left hc, Nat.mul_right_inj (Nat.ne_of_gt hc)]

theorem roundHalfEven_mul_self {below : Nat} (hb : 0 < below) (n : Nat) :
    roundHalfEven (n * below) below = n := by
  have hb' : below ≠ 0 := Nat.ne_of_gt hb
  simp [roundHalfEven, Nat.mul_div_cancel _ hb, hb'.symm]

theorem le_roundHalfEven {above below n : Nat} (hb : 0 < below) (h : n * below ≤ above) :
    n ≤ roundHalfEven above below := by
  have hdiv : n ≤ above / below := (Nat.le_div_iff_mul_le hb).mpr h
  simp only [roundHalfEven]
  split <;> omega

theorem roundHalfEven_eq_zero {above below : Nat} (hb : 0 < below)
    (h : (above : ℚ) / below < 2⁻¹) : roundHalfEven above below = 0 := by
  have hb' : (0 : ℚ) < below := Nat.cast_pos.mpr hb
  have htwice : 2 * above < below := by
    rw [div_lt_iff₀ hb', ← div_eq_inv_mul, lt_div_iff₀ two_pos, mul_comm] at h
    exact_mod_cast h
  have hlt : above < below := by omega
  rw [roundHalfEven, Nat.div_eq_of_lt hlt, Nat.mod_eq_of_lt hlt]
  exact if_neg (by omega)

/-! ## The leading bit -/

theorem log_eq {r : ℚ} {p : ℤ} (hr : 0 < r) (hle : (2 : ℚ) ^ p ≤ r) (hlt : r < (2 : ℚ) ^ (p + 1)) :
    Int.log 2 r = p := by
  have h₁ : p ≤ Int.log 2 r := (Int.zpow_le_iff_le_log Nat.one_lt_two hr).mp hle
  have h₂ : Int.log 2 r < p + 1 := (Int.lt_zpow_iff_log_lt Nat.one_lt_two hr).mp hlt
  omega

/-- A power of two is below a quotient if it is so in natural numbers. -/
theorem zpow_le_div_iff {above below : Nat} (hb : 0 < below) (p : ℤ) :
    (2 : ℚ) ^ p ≤ above / below ↔ below * 2 ^ p.toNat ≤ above * 2 ^ (-p).toNat := by
  have hb' : (0 : ℚ) < below := Nat.cast_pos.mpr hb
  have hpow : (0 : ℚ) < 2 ^ (-p).toNat := by positivity
  rw [le_div_iff₀ hb', ← mul_le_mul_iff_left₀ hpow, mul_right_comm,
    zpow_mul_pow_toNat two_ne_zero, mul_comm]
  exact_mod_cast Iff.rfl

/-- The power of the leading bit is the logarithm of the quotient. -/
theorem leadingPower_eq_log {above below : Nat} (ha : 0 < above) (hb : 0 < below) :
    leadingPower above below = Int.log 2 ((above : ℚ) / below) := by
  have ha' : (0 : ℚ) < above := Nat.cast_pos.mpr ha
  have hb' : (0 : ℚ) < below := Nat.cast_pos.mpr hb
  have hpos : (0 : ℚ) < above / below := div_pos ha' hb'
  have hle_a : (2 : ℚ) ^ (above.log2 : ℤ) ≤ above := by
    rw [zpow_natCast]
    exact_mod_cast Nat.log2_self_le (Nat.ne_of_gt ha)
  have hlt_a : (above : ℚ) < 2 ^ (above.log2 + 1 : ℤ) := by
    rw [← Nat.cast_succ, zpow_natCast]
    exact_mod_cast Nat.lt_log2_self
  have hle_b : (2 : ℚ) ^ (below.log2 : ℤ) ≤ below := by
    rw [zpow_natCast]
    exact_mod_cast Nat.log2_self_le (Nat.ne_of_gt hb)
  have hlt_b : (below : ℚ) < 2 ^ (below.log2 + 1 : ℤ) := by
    rw [← Nat.cast_succ, zpow_natCast]
    exact_mod_cast Nat.lt_log2_self
  have hpow : ∀ p : ℤ, (0 : ℚ) < 2 ^ p := fun p => zpow_pos two_pos p
  -- the leading bits of the two naturals tell the power up to one
  have hupper : (above : ℚ) / below < 2 ^ ((above.log2 : ℤ) - below.log2 + 1) := by
    rw [div_lt_iff₀ hb']
    calc (above : ℚ) < 2 ^ (above.log2 + 1 : ℤ) := hlt_a
      _ = 2 ^ ((above.log2 : ℤ) - below.log2 + 1) * 2 ^ (below.log2 : ℤ) := by
          rw [← zpow_add₀ two_ne_zero]
          congr 1
          omega
      _ ≤ 2 ^ ((above.log2 : ℤ) - below.log2 + 1) * below :=
          mul_le_mul_of_nonneg_left hle_b (hpow _).le
  have hlower : (2 : ℚ) ^ ((above.log2 : ℤ) - below.log2 - 1) ≤ above / below := by
    rw [le_div_iff₀ hb']
    calc (2 : ℚ) ^ ((above.log2 : ℤ) - below.log2 - 1) * below
        ≤ 2 ^ ((above.log2 : ℤ) - below.log2 - 1) * 2 ^ (below.log2 + 1 : ℤ) :=
          mul_le_mul_of_nonneg_left hlt_b.le (hpow _).le
      _ = 2 ^ (above.log2 : ℤ) := by
          rw [← zpow_add₀ two_ne_zero]
          congr 1
          omega
      _ ≤ above := hle_a
  simp only [leadingPower, Nat.pow_eq]
  by_cases hguess : (2 : ℚ) ^ ((above.log2 : ℤ) - below.log2) ≤ above / below
  · rw [if_pos ((zpow_le_div_iff hb _).mp hguess)]
    exact (log_eq hpos hguess hupper).symm
  · rw [if_neg fun h => hguess ((zpow_le_div_iff hb _).mpr h)]
    refine (log_eq hpos hlower ?_).symm
    rw [Int.sub_add_cancel]
    exact not_le.mp hguess

/-! ## Rounding a quotient -/

/-- The quotient that is rounded to a significand: the given one without the power of two of its
last bit. -/
theorem scaled_div {above below : Nat} (scale : ℤ) :
    ((above * 2 ^ (-scale).toNat : Nat) : ℚ) / (below * 2 ^ scale.toNat : Nat)
      = above / below * 2 ^ (-scale) := by
  have hpow : (2 : ℚ) ^ (-scale).toNat / 2 ^ scale.toNat = 2 ^ (-scale) := by
    rw [div_eq_iff (by positivity)]
    simpa using (zpow_mul_pow_toNat (two_ne_zero (α := ℚ)) (-scale)).symm
  push_cast
  rw [mul_div_mul_comm, hpow]

theorem roundQuotient_mul_left {c above below : Nat} (hc : 0 < c) (ha : 0 < above)
    (hb : 0 < below) :
    roundQuotient (c * above) (c * below) = roundQuotient above below := by
  have hc' : (c : ℚ) ≠ 0 := Nat.cast_ne_zero.mpr (Nat.ne_of_gt hc)
  have hlead : leadingPower (c * above) (c * below) = leadingPower above below := by
    rw [leadingPower_eq_log (Nat.mul_pos hc ha) (Nat.mul_pos hc hb), leadingPower_eq_log ha hb]
    push_cast
    rw [mul_div_mul_left _ _ hc']
  simp only [roundQuotient, hlead, Nat.mul_assoc, roundHalfEven_mul_left hc]

/-- Equal quotients round to the same magnitude. -/
theorem roundQuotient_congr {a b c d : Nat} (ha : 0 < a) (hb : 0 < b) (hc : 0 < c) (hd : 0 < d)
    (h : a * d = c * b) : roundQuotient a b = roundQuotient c d := by
  calc roundQuotient a b = roundQuotient (d * a) (d * b) := (roundQuotient_mul_left hd ha hb).symm
    _ = roundQuotient (b * c) (b * d) := by rw [Nat.mul_comm d a, h, Nat.mul_comm c, Nat.mul_comm d]
    _ = roundQuotient c d := roundQuotient_mul_left hb hc hd

/-- What lies at or above the first power of two beyond the finite magnitudes is infinite. -/
theorem roundQuotient_eq_infinity {above below : Nat} (ha : 0 < above) (hb : 0 < below)
    (h : (2 : ℚ) ^ (1024 : ℤ) ≤ above / below) : roundQuotient above below = infinity := by
  have hb' : (0 : ℚ) < below := Nat.cast_pos.mpr hb
  have hpos : (0 : ℚ) < above / below := div_pos (Nat.cast_pos.mpr ha) hb'
  have hlead : 1024 ≤ Int.log 2 ((above : ℚ) / below) :=
    (Int.zpow_le_iff_le_log Nat.one_lt_two hpos).mp h
  obtain ⟨p, hp⟩ : ∃ p, p = Int.log 2 ((above : ℚ) / below) := ⟨_, rfl⟩
  rw [← hp] at hlead
  have hscale : max (p - 52) (-1074) = p - 52 := max_eq_left (by omega)
  -- scaled like this, the quotient fills all bits of a significand
  have hsignificand : 2 ^ 52 ≤ roundHalfEven (above * 2 ^ (-(p - 52)).toNat)
      (below * 2 ^ (p - 52).toNat) := by
    have hpos' : 0 < below * 2 ^ (p - 52).toNat := Nat.mul_pos hb (Nat.two_pow_pos _)
    refine le_roundHalfEven hpos' ?_
    have hpos'' : (0 : ℚ) < (below * 2 ^ (p - 52).toNat : Nat) := Nat.cast_pos.mpr hpos'
    suffices hle : ((2 ^ 52 : Nat) : ℚ) ≤ (above * 2 ^ (-(p - 52)).toNat : Nat)
        / (below * 2 ^ (p - 52).toNat : Nat) by
      rw [le_div_iff₀ hpos''] at hle
      exact_mod_cast hle
    have hlog : (2 : ℚ) ^ p ≤ above / below := by
      rw [hp]
      exact Int.zpow_log_le_self Nat.one_lt_two hpos
    rw [scaled_div]
    calc ((2 ^ 52 : Nat) : ℚ) = 2 ^ p * 2 ^ (-(p - 52)) := by
          rw [← zpow_add₀ two_ne_zero, show p + -(p - 52) = (52 : ℕ) by omega, zpow_natCast]
          norm_cast
      _ ≤ above / below * 2 ^ (-(p - 52)) :=
          mul_le_mul_of_nonneg_right hlog (zpow_pos two_pos _).le
  rw [roundQuotient, leadingPower_eq_log ha hb, ← hp, hscale]
  -- the exponent alone is that of the infinite magnitude or beyond
  refine Nat.min_eq_right ?_
  have hexponent : 2046 ≤ (p - 52 + 1074).toNat := by omega
  simp only [hiddenBit, infinity, Nat.pow_eq] at hsignificand ⊢
  omega

/-- What lies below half the least magnitude is zero. -/
theorem roundQuotient_eq_zero {above below : Nat} (ha : 0 < above) (hb : 0 < below)
    (h : (above : ℚ) / below < 2 ^ (-1075 : ℤ)) : roundQuotient above below = 0 := by
  have hb' : (0 : ℚ) < below := Nat.cast_pos.mpr hb
  have hpos : (0 : ℚ) < above / below := div_pos (Nat.cast_pos.mpr ha) hb'
  have hlead : Int.log 2 ((above : ℚ) / below) < -1075 :=
    (Int.lt_zpow_iff_log_lt Nat.one_lt_two hpos).mp h
  have hscale : max (Int.log 2 ((above : ℚ) / below) - 52) (-1074) = -1074 :=
    max_eq_right (by omega)
  have hsmall : ((above * 2 ^ (-(-1074 : ℤ)).toNat : Nat) : ℚ)
      / (below * 2 ^ (-1074 : ℤ).toNat : Nat) < 2⁻¹ := by
    rw [scaled_div]
    calc (above : ℚ) / below * 2 ^ (-(-1074 : ℤ)) < 2 ^ (-1075 : ℤ) * 2 ^ (-(-1074 : ℤ)) :=
          mul_lt_mul_of_pos_right h (zpow_pos two_pos _)
      _ = 2⁻¹ := by
          rw [← zpow_add₀ two_ne_zero]
          exact zpow_neg_one 2
  have hpos' : 0 < below * 2 ^ (-1074 : ℤ).toNat := Nat.mul_pos hb (Nat.two_pow_pos _)
  simp only [roundQuotient, leadingPower_eq_log ha hb, hscale, Nat.pow_eq,
    roundHalfEven_eq_zero hpos' hsmall]
  rfl

/-! ## Magnitudes -/

/-- The number that a finite magnitude stands for. -/
def value (magnitude : Nat) : ℚ := significand magnitude * 2 ^ power magnitude

theorem significand_pos {m : Nat} (hm : 0 < m) : 0 < significand m := by
  rw [significand]
  split
  · exact hm
  · exact Nat.add_pos_left (by decide) _

theorem value_zero : value 0 = 0 := by
  rw [value, show significand 0 = 0 from rfl, Nat.cast_zero, zero_mul]

theorem value_pos {m : Nat} (h : 0 < m) : 0 < value m :=
  mul_pos (Nat.cast_pos.mpr (significand_pos h)) (zpow_pos two_pos _)

/-- The significand and the power of a magnitude determine it. -/
theorem power_add_mul_hiddenBit_add_significand {m : Nat} (hm : hiddenBit ≤ m) :
    (power m + 1074).toNat * hiddenBit + significand m = m := by
  have hlt : ¬ m < hiddenBit := Nat.not_lt.mpr hm
  have hdiv : 1 ≤ m / hiddenBit := (Nat.one_le_div_iff (by decide)).mpr hm
  have hpower : (power m + 1074).toNat = m / hiddenBit - 1 := by
    rw [power, if_neg hlt]
    omega
  rw [hpower, significand, if_neg hlt]
  calc (m / hiddenBit - 1) * hiddenBit + (hiddenBit + m % hiddenBit)
      = (m / hiddenBit - 1 + 1) * hiddenBit + m % hiddenBit := by
        rw [Nat.succ_mul, Nat.add_assoc]
    _ = m / hiddenBit * hiddenBit + m % hiddenBit := by rw [Nat.sub_add_cancel hdiv]
    _ = m := Nat.div_add_mod' m hiddenBit

/-- A significand is what its value rounds to once the power is taken out. -/
theorem roundHalfEven_of_value {m above below : Nat} (hb : 0 < below)
    (h : (above : ℚ) / below = value m) :
    roundHalfEven (above * 2 ^ (-power m).toNat) (below * 2 ^ (power m).toNat) = significand m := by
  have hpos : 0 < below * 2 ^ (power m).toNat := Nat.mul_pos hb (Nat.two_pow_pos _)
  have hpos' : (0 : ℚ) < (below * 2 ^ (power m).toNat : Nat) := Nat.cast_pos.mpr hpos
  have hscaled : ((above * 2 ^ (-power m).toNat : Nat) : ℚ) / (below * 2 ^ (power m).toNat : Nat)
      = significand m := by
    rw [scaled_div, h, value, mul_assoc, ← zpow_add₀ two_ne_zero, Int.add_right_neg, zpow_zero,
      mul_one]
  have heq : above * 2 ^ (-power m).toNat = significand m * (below * 2 ^ (power m).toNat) := by
    rw [div_eq_iff (ne_of_gt hpos')] at hscaled
    exact_mod_cast hscaled
  rw [heq, roundHalfEven_mul_self hpos]

/-- What has the value of a magnitude rounds to that magnitude. -/
theorem roundQuotient_of_value {m above below : Nat} (hm : 0 < m) (hfinite : m < infinity)
    (ha : 0 < above) (hb : 0 < below) (h : (above : ℚ) / below = value m) :
    roundQuotient above below = m := by
  have hs := significand_pos hm
  have hpos : (0 : ℚ) < value m := mul_pos (Nat.cast_pos.mpr hs) (zpow_pos two_pos _)
  have hround := roundHalfEven_of_value hb h
  have hsize : (significand m : ℚ) < 2 ^ (53 : ℤ) := by
    have hlt : significand m < 2 ^ 53 := by
      have hmod : m % hiddenBit < hiddenBit := Nat.mod_lt _ (by decide)
      have hhidden : 2 ^ 53 = 2 * hiddenBit := rfl
      rw [significand, hhidden]
      split <;> omega
    exact_mod_cast hlt
  have hlog : Int.log 2 (value m) < 53 + power m := by
    rw [← Int.lt_zpow_iff_log_lt Nat.one_lt_two hpos, value, Nat.cast_ofNat,
      zpow_add₀ two_ne_zero]
    exact mul_lt_mul_of_pos_right hsize (zpow_pos two_pos _)
  simp only [roundQuotient, leadingPower_eq_log ha hb, h, Nat.pow_eq]
  by_cases hsmall : m < hiddenBit
  · -- a subnormal magnitude is its own significand, and its power is where the scale is cut off
    have hpower : power m = -1074 := if_pos hsmall
    have hsize' : (significand m : ℚ) < 2 ^ (52 : ℤ) := by
      have hlt : significand m < 2 ^ 52 := by
        rw [significand, if_pos hsmall]
        exact hsmall
      exact_mod_cast hlt
    have hscale : max (Int.log 2 (value m) - 52) (-1074) = power m := by
      rw [hpower] at hlog ⊢
      exact max_eq_right (by omega)
    rw [hscale, hround, significand, if_pos hsmall, hpower]
    simpa using Nat.le_of_lt hfinite
  · -- a normal one has the hidden bit set, so its leading bit tells its power
    have hnormal : hiddenBit ≤ m := Nat.not_lt.mp hsmall
    have hpower : -1074 ≤ power m := by
      have hdiv : 1 ≤ m / hiddenBit := (Nat.one_le_div_iff (by decide)).mpr hnormal
      rw [power, if_neg hsmall]
      omega
    have hsize' : (2 : ℚ) ^ (52 : ℤ) ≤ significand m := by
      have hle : 2 ^ 52 ≤ significand m := by
        rw [significand, if_neg hsmall]
        exact Nat.le_add_right _ _
      exact_mod_cast hle
    have hlog' : 52 + power m ≤ Int.log 2 (value m) := by
      rw [← Int.zpow_le_iff_le_log Nat.one_lt_two hpos, value, Nat.cast_ofNat,
        zpow_add₀ two_ne_zero]
      exact mul_le_mul_of_nonneg_right hsize' (zpow_pos two_pos _).le
    have hscale : max (Int.log 2 (value m) - 52) (-1074) = power m := by
      rw [max_eq_left (by omega)]
      omega
    rw [hscale, hround, power_add_mul_hiddenBit_add_significand hnormal]
    exact Nat.min_eq_left (Nat.le_of_lt hfinite)

end Number

namespace Decimal

/-! ## Decimals -/

/-- The number that a decimal stands for. -/
def value (d : Decimal) : ℚ := d.digits * 10 ^ d.exponent

/-- The numerator of the quotient of naturals that is a decimal. -/
def above (d : Decimal) : Nat := d.digits * 10 ^ d.exponent.toNat

/-- The denominator of that quotient. -/
def below (d : Decimal) : Nat := 10 ^ (-d.exponent).toNat

theorem below_pos (d : Decimal) : 0 < d.below := Nat.pow_pos (by decide)

theorem above_pos {d : Decimal} (h : d.digits ≠ 0) : 0 < d.above :=
  Nat.mul_pos (Nat.pos_of_ne_zero h) (Nat.pow_pos (by decide))

theorem above_div_below (d : Decimal) : (d.above : ℚ) / d.below = d.value := by
  have hpos : (0 : ℚ) < d.below := Nat.cast_pos.mpr d.below_pos
  rw [div_eq_iff (ne_of_gt hpos), value, below, above]
  push_cast
  rw [mul_assoc, zpow_mul_pow_toNat (by norm_num)]

theorem value_eq_zero_iff {d : Decimal} : d.value = 0 ↔ d.digits = 0 := by
  have hpow : (10 : ℚ) ^ d.exponent ≠ 0 := zpow_ne_zero _ (by norm_num)
  rw [value, mul_eq_zero, or_iff_left hpow, Nat.cast_eq_zero]

theorem le_value_of_large {d : Decimal} (hd : d.digits ≠ 0) (h : 400 < d.exponent) :
    (2 : ℚ) ^ (1024 : ℤ) ≤ d.value := by
  have hdigits : (1 : ℚ) ≤ d.digits := by exact_mod_cast Nat.pos_of_ne_zero hd
  calc (2 : ℚ) ^ (1024 : ℤ) ≤ 2 ^ ((3 : ℤ) * 401) := zpow_le_zpow_right₀ (by norm_num) (by norm_num)
    _ = 8 ^ (401 : ℤ) := by rw [zpow_mul]; norm_num
    _ ≤ 10 ^ (401 : ℤ) := zpow_le_zpow_left₀ (by norm_num) (by norm_num) (by norm_num)
    _ ≤ 10 ^ d.exponent := zpow_le_zpow_right₀ (by norm_num) (by omega)
    _ ≤ d.value := le_mul_of_one_le_left (zpow_pos (by norm_num) _).le hdigits

theorem value_lt_of_small {d : Decimal} (h : d.exponent < -400 - (d.digits.log2 : ℤ)) :
    d.value < 2 ^ (-1075 : ℤ) := by
  obtain ⟨p, hp⟩ : ∃ p, p = d.digits.log2 := ⟨_, rfl⟩
  rw [← hp] at h
  have hdigits : (d.digits : ℚ) < 2 ^ (p + 1 : ℤ) := by
    rw [← Nat.cast_succ, zpow_natCast, hp]
    exact_mod_cast Nat.lt_log2_self
  -- ten is more than two to the third
  have hten : (10 : ℚ) ^ (-401 - p : ℤ) ≤ 2 ^ (-1203 - 3 * p : ℤ) := by
    have hpow : (2 : ℚ) ^ (1203 + 3 * p : ℤ) ≤ 10 ^ (401 + p : ℤ) := by
      rw [show (1203 + 3 * p : ℤ) = 3 * (401 + p) by ring, zpow_mul]
      exact zpow_le_zpow_left₀ (by omega) (by norm_num) (by norm_num)
    rw [show (-401 - p : ℤ) = -(401 + p) by ring,
      show (-1203 - 3 * p : ℤ) = -(1203 + 3 * p) by ring, zpow_neg, zpow_neg]
    exact inv_anti₀ (zpow_pos two_pos _) hpow
  calc d.value < 2 ^ (p + 1 : ℤ) * 10 ^ d.exponent :=
        mul_lt_mul_of_pos_right hdigits (zpow_pos (by norm_num) _)
    _ ≤ 2 ^ (p + 1 : ℤ) * 2 ^ (-1203 - 3 * p : ℤ) := by
        refine mul_le_mul_of_nonneg_left (le_trans ?_ hten) (zpow_pos two_pos _).le
        exact zpow_le_zpow_right₀ (by norm_num) (by omega)
    _ = 2 ^ (-1202 - 2 * p : ℤ) := by
        rw [← zpow_add₀ two_ne_zero]
        congr 1
        ring
    _ ≤ 2 ^ (-1075 : ℤ) := zpow_le_zpow_right₀ (by norm_num) (by omega)

/-- The shortcuts for extreme exponents give what rounding the quotient would give. -/
theorem round_eq_roundQuotient {d : Decimal} (hd : d.digits ≠ 0) :
    d.round = Number.roundQuotient d.above d.below := by
  rw [round, if_neg hd]
  by_cases hlarge : 400 < d.exponent
  · rw [if_pos hlarge]
    refine (Number.roundQuotient_eq_infinity (above_pos hd) d.below_pos ?_).symm
    rw [above_div_below]
    exact le_value_of_large hd hlarge
  · rw [if_neg hlarge]
    by_cases hsmall : d.exponent < -400 - (d.digits.log2 : ℤ)
    · rw [if_pos hsmall]
      refine (Number.roundQuotient_eq_zero (above_pos hd) d.below_pos ?_).symm
      rw [above_div_below]
      exact value_lt_of_small hsmall
    · rw [if_neg hsmall]
      rfl

/-- Rounding depends on nothing but the value. -/
theorem round_congr {d d' : Decimal} (h : d.value = d'.value) : d.round = d'.round := by
  by_cases hd : d.digits = 0
  · have hd' : d'.digits = 0 := by rw [← value_eq_zero_iff, ← h, value_eq_zero_iff, hd]
    rw [round, round, if_pos hd, if_pos hd']
  · have hd' : d'.digits ≠ 0 := by rwa [Ne, ← value_eq_zero_iff, ← h, value_eq_zero_iff]
    rw [round_eq_roundQuotient hd, round_eq_roundQuotient hd']
    refine Number.roundQuotient_congr (above_pos hd) d.below_pos (above_pos hd') d'.below_pos ?_
    have hb : (d.below : ℚ) ≠ 0 := Nat.cast_ne_zero.mpr (Nat.ne_of_gt d.below_pos)
    have hb' : (d'.below : ℚ) ≠ 0 := Nat.cast_ne_zero.mpr (Nat.ne_of_gt d'.below_pos)
    have hdiv : (d.above : ℚ) / d.below = d'.above / d'.below := by
      rw [above_div_below, above_div_below, h]
    rw [div_eq_div_iff hb hb'] at hdiv
    exact_mod_cast hdiv

/-- What has the value of a finite magnitude rounds to it. -/
theorem round_of_value {d : Decimal} {m : Nat} (hm : 0 < m) (hfinite : m < Number.infinity)
    (h : d.value = Number.value m) : d.round = m := by
  have hd : d.digits ≠ 0 := by
    rw [Ne, ← value_eq_zero_iff, h, Number.value]
    exact mul_ne_zero (Nat.cast_ne_zero.mpr (Nat.ne_of_gt (Number.significand_pos hm)))
      (zpow_ne_zero _ two_ne_zero)
  rw [round_eq_roundQuotient hd]
  exact Number.roundQuotient_of_value hm hfinite (above_pos hd) d.below_pos
    ((above_div_below d).trans h)

/-! ## Shortest decimals -/

theorem value_strip (d : Decimal) : (strip d).value = d.value := by
  fun_induction strip d with
  | case1 d hzero ih =>
      rw [ih, value, value]
      have hdigits : d.digits = 10 * (d.digits / 10) := by omega
      conv_rhs => rw [hdigits]
      push_cast
      rw [zpow_add₀ (by norm_num), zpow_one]
      ring
  | case2 d => rfl

theorem value_exact (m : Nat) : (exact m).value = Number.value m := by
  rw [exact, Number.value]
  by_cases hpower : 0 ≤ Number.power m
  · simp only [hpower, if_true, value, Nat.pow_eq]
    push_cast
    rw [mul_one, ← zpow_natCast, Int.toNat_of_nonneg hpower]
  · simp only [hpower, if_false, value, Nat.pow_eq]
    push_cast
    rw [mul_assoc]
    congr 1
    -- a negative power of two is a power of five over one of ten
    have htwo : (2 : ℚ) ^ Number.power m = (10 / 5) ^ Number.power m := by norm_num
    rw [htwo, div_zpow, ← zpow_natCast, Int.toNat_of_nonneg (by omega), zpow_neg, mul_comm,
      div_eq_mul_inv]

/-- The shortest decimal of a finite magnitude reads back to it. -/
theorem round_shortest (tie : Tie) {m : Nat} (hm : 0 < m) (hfinite : m < Number.infinity) :
    (shortest tie m).round = m := by
  rw [shortest]
  refine (round_congr (value_strip _)).trans ?_
  obtain ⟨found, hfound⟩ : ∃ found, found = (List.range 17).findSome? fun (n : Nat) =>
    onGrid? tie m (scale m - 1 - (n : Nat)) := ⟨_, rfl⟩
  rw [← hfound]
  cases found with
  -- where no short decimal reads back, the exact one does
  | none => exact round_of_value hm hfinite (value_exact m)
  | some d =>
      obtain ⟨n, -, hn⟩ := List.exists_of_findSome?_eq_some hfound.symm
      exact beq_iff_eq.mp (readsAs_of_onGrid? hn)

end Decimal

/-! ## Whole numbers -/

namespace Number

theorem quotient_fst_div_snd (m : Nat) : ((quotient m).1 : ℚ) / (quotient m).2 = value m := by
  have hpow : ((2 ^ (-power m).toNat : Nat) : ℚ) ≠ 0 := by positivity
  simp only [quotient, Nat.pow_eq]
  rw [div_eq_iff hpow, value, mul_assoc]
  push_cast
  rw [zpow_mul_pow_toNat two_ne_zero]

/-- The integer that a number is equal to has its size, and unless it is zero its sign. -/
theorem natAbs_of_toInt? {n : Number} {i : Int} (h : n.toInt? = some i) :
    n.isFinite = true ∧ (i.natAbs : ℚ) = value n.magnitude
      ∧ (i ≠ 0 → decide (i < 0) = n.isNegative) := by
  rw [toInt?] at h
  split at h
  · next hfinite =>
    simp only at h
    split at h
    · next hwhole =>
      have hbelow : ((quotient n.magnitude).2 : ℚ) ≠ 0 := by
        simp only [quotient, Nat.pow_eq]
        positivity
      have hsize := Nat.cast_div (Nat.dvd_of_mod_eq_zero hwhole) hbelow
      rw [quotient_fst_div_snd] at hsize
      cases h
      generalize (quotient n.magnitude).1 / (quotient n.magnitude).2 = size at hsize
      refine ⟨hfinite, ?_, ?_⟩
      · rw [← hsize]
        split <;> simp
      · intro hne
        cases n.isNegative with
        | true =>
            simp at hne ⊢
            omega
        | false => simp
    · cases h
  · cases h

/-- The integer that a number is equal to has this number, but for the sign of a zero. -/
theorem ofInt_of_toInt? {n : Number} {i : Int} (h : n.toInt? = some i) :
    ofInt i = if n.magnitude = 0 then zero else n := by
  obtain ⟨hfinite, hsize, hsign⟩ := natAbs_of_toInt? h
  by_cases hzero : n.magnitude = 0
  · rw [hzero, value_zero, Nat.cast_eq_zero, Int.natAbs_eq_zero] at hsize
    rw [if_pos hzero, hsize]
    rfl
  · have hpos : 0 < n.magnitude := Nat.pos_of_ne_zero hzero
    have hne : i ≠ 0 := by
      rintro rfl
      exact (value_pos hpos).ne hsize
    have hvalue : (⟨i.natAbs, 0⟩ : Decimal).value = value n.magnitude := by
      rw [Decimal.value, zpow_zero, mul_one, hsize]
    rw [if_neg hzero, ofInt, ofDecimal, hsign hne,
      Decimal.round_of_value hpos (of_decide_eq_true hfinite) hvalue, ofParts_isNegative_magnitude]

end Number

end JsonAxes

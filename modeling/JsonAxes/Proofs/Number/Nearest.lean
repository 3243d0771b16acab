import JsonAxes.Proofs.Number.Rounding
import Mathlib.Tactic.Linarith

/-!
# The nearest number

No finite magnitude stands for a number nearer to a decimal than the one that the decimal is rounded
to, and where another one is as near, the one that is taken is even (`Decimal.isNearest_round`).
There is only one such magnitude (`Number.IsNearest.unique`).

A quotient is rounded to a multiple of a power of two, the scale, which is chosen by its leading bit
(`Number.IsRounded`). Most finite magnitudes are multiples of the scale as well, and among these the
nearest is found because the nearest natural is. The others have a power below the scale, and they
lie so far down that the leading bit of the quotient alone is nearer to it.
-/

set_option autoImplicit false

namespace JsonAxes

namespace Number

/-- Whether a magnitude is finite, none stands for a number nearer to `q`, and it is even if another
one is as near. -/
structure IsNearest (q : ℚ) (m : Nat) : Prop where
  finite : m < infinity
  nearest {m' : Nat} (h : m' < infinity) : |value m - q| ≤ |value m' - q|
  even {m' : Nat} (h : m' < infinity) (hne : m' ≠ m) (htie : |value m' - q| = |value m - q|) :
    m % 2 = 0

/-! ## The nearest natural -/

section Naturals

variable {x : ℚ} {k n : ℕ}

/-- Two naturals cannot both be less than a half away. -/
theorem one_le_distances (h : n ≠ k) : 1 ≤ |(n : ℚ) - x| + |(k : ℚ) - x| := by
  have hne : (n : ℤ) - k ≠ 0 := by omega
  calc (1 : ℚ) ≤ |(n : ℚ) - k| := by exact_mod_cast Int.one_le_abs hne
    _ = |((n : ℚ) - x) - (k - x)| := by rw [sub_sub_sub_cancel_right]
    _ ≤ |(n : ℚ) - x| + |(k : ℚ) - x| := abs_sub _ _

/-- A natural at most a half away is as near as any other. -/
theorem abs_sub_le_of_half (h : 2 * |(k : ℚ) - x| ≤ 1) (n : ℕ) : |(k : ℚ) - x| ≤ |(n : ℚ) - x| := by
  by_cases hne : n = k
  · rw [hne]
  · have hdistances := one_le_distances hne (x := x)
    linarith

/-- Another natural that is as near is exactly as far on the other side. -/
theorem half_of_abs_sub_eq (h : 2 * |(k : ℚ) - x| ≤ 1) (hne : n ≠ k)
    (htie : |(n : ℚ) - x| = |(k : ℚ) - x|) : 2 * |(k : ℚ) - x| = 1 := by
  have hdistances := one_le_distances hne (x := x)
  rw [htie] at hdistances
  linarith

end Naturals

/-- What is rounded up or down falls short of the quotient, or exceeds it, by at most a half. -/
theorem exists_roundHalfEven_mul (above : Nat) {below : Nat} (hb : 0 < below) :
    ∃ gap : ℤ, (roundHalfEven above below : ℤ) * below = above + gap ∧ 2 * |gap| ≤ below
      ∧ (2 * |gap| = below → roundHalfEven above below % 2 = 0) := by
  have hmod := Nat.mod_lt above hb
  have hdiv : ((above / below : Nat) : ℤ) * below = above - (above % below : Nat) := by
    have hsum : ((above / below * below + above % below : Nat) : ℤ) = above := by
      rw [Nat.div_add_mod']
    push_cast at hsum ⊢
    linarith
  simp only [roundHalfEven]
  split
  · next hup =>
    refine ⟨below - (above % below : Nat), ?_, ?_, ?_⟩
    · rw [Nat.cast_succ, Int.add_mul, hdiv]
      ring
    · rw [abs_of_pos (by omega)]
      omega
    · rw [abs_of_pos (by omega)]
      omega
  · next hdown =>
    refine ⟨-(above % below : Nat), ?_, ?_, ?_⟩
    · rw [hdiv]
      ring
    · rw [abs_neg, Nat.abs_cast]
      omega
    · rw [abs_neg, Nat.abs_cast]
      omega

/-- The natural that a quotient is rounded to is at most a half away, and even where it is exactly
that far away. -/
theorem half_roundHalfEven (above : Nat) {below : Nat} (hb : 0 < below) :
    2 * |(roundHalfEven above below : ℚ) - above / below| ≤ 1
    ∧ (2 * |(roundHalfEven above below : ℚ) - above / below| = 1 →
      roundHalfEven above below % 2 = 0) := by
  obtain ⟨gap, hgap, hle, heven⟩ := exists_roundHalfEven_mul above hb
  have hb' : (0 : ℚ) < below := Nat.cast_pos.mpr hb
  have hdistance : |(roundHalfEven above below : ℚ) - above / below| = |(gap : ℚ)| / below := by
    have hgap' : (roundHalfEven above below : ℚ) * below = above + gap := by exact_mod_cast hgap
    rw [← abs_of_pos hb', ← abs_div, abs_of_pos hb', sub_div' hb'.ne', hgap', add_sub_cancel_left]
  rw [hdistance, ← mul_div_assoc, div_le_one hb', div_eq_one_iff_eq hb'.ne']
  constructor
  · exact_mod_cast hle
  · intro h
    exact heven (by exact_mod_cast h)

/-! ## Values -/

theorem significand_lt (m : Nat) : significand m < 2 ^ 53 := by
  have hmod : m % hiddenBit < hiddenBit := Nat.mod_lt _ (by decide)
  have hhidden : 2 ^ 53 = 2 * hiddenBit := rfl
  rw [significand, hhidden]
  split <;> omega

theorem le_power (m : Nat) : -1074 ≤ power m := by
  rw [power]
  split
  · exact le_refl _
  · next h =>
    have hdiv := (Nat.one_le_div_iff (by decide)).mpr (Nat.not_lt.mp h)
    omega

theorem value_of_lt {m : Nat} (h : m < hiddenBit) : value m = m * 2 ^ (-1074 : ℤ) := by
  rw [value, significand, power, if_pos h, if_pos h]

/-- The value of a magnitude with the hidden bit, by its exponent and its fraction. -/
theorem value_succ_mul_hiddenBit_add {e r : Nat} (h : r < hiddenBit) :
    value ((e + 1) * hiddenBit + r) = (hiddenBit + r : Nat) * 2 ^ ((e : ℤ) - 1074) := by
  have hnot : ¬ (e + 1) * hiddenBit + r < hiddenBit := by
    rw [Nat.succ_mul]
    omega
  have hdiv : ((e + 1) * hiddenBit + r) / hiddenBit = e + 1 := by
    rw [Nat.mul_comm, Nat.mul_add_div (by decide), Nat.div_eq_of_lt h, Nat.add_zero]
  have hmod : ((e + 1) * hiddenBit + r) % hiddenBit = r := by
    rw [Nat.mul_add_mod_self_right, Nat.mod_eq_of_lt h]
  have hpower : ((e + 1 : Nat) : ℤ) - 1075 = e - 1074 := by omega
  rw [value, significand, power, if_neg hnot, if_neg hnot, hdiv, hmod, hpower]

/-- Magnitudes as rounding puts them together: a significand that is twice the hidden bit carries
into the exponent. -/
theorem value_mul_hiddenBit_add {e k : Nat} (he : e = 0 ∨ hiddenBit ≤ k)
    (hk : k ≤ 2 * hiddenBit) : value (e * hiddenBit + k) = k * 2 ^ ((e : ℤ) - 1074) := by
  by_cases hsmall : k < hiddenBit
  · -- without the hidden bit there is no exponent
    rw [he.resolve_right (Nat.not_le.mpr hsmall), Nat.zero_mul, Nat.zero_add, value_of_lt hsmall,
      Nat.cast_zero, zero_sub]
  · obtain ⟨r, rfl⟩ := Nat.exists_eq_add_of_le (Nat.not_lt.mp hsmall)
    have hsum : e * hiddenBit + (hiddenBit + r) = (e + 1) * hiddenBit + r := by
      rw [Nat.succ_mul, Nat.add_assoc]
    rw [hsum]
    by_cases hcarry : r < hiddenBit
    · exact value_succ_mul_hiddenBit_add hcarry
    · obtain rfl : r = hiddenBit := by omega
      have hnext : (e + 1) * hiddenBit + hiddenBit = (e + 1 + 1) * hiddenBit + 0 := by
        ring
      have hpower : ((e + 1 : Nat) : ℤ) - 1074 = 1 + (e - 1074) := by omega
      rw [hnext, value_succ_mul_hiddenBit_add (by decide), hpower, zpow_add₀ two_ne_zero]
      push_cast
      ring

/-- A greater magnitude stands for a greater number. -/
theorem value_strictMono : StrictMono value := by
  apply strictMono_nat_of_lt_succ
  intro m
  obtain ⟨e, k, rfl, he, hk⟩ :
      ∃ e k, m = e * hiddenBit + k ∧ (e = 0 ∨ hiddenBit ≤ k) ∧ k < 2 * hiddenBit := by
    by_cases hsmall : m < hiddenBit
    · exact ⟨0, m, by omega, .inl rfl, by omega⟩
    · refine ⟨m / hiddenBit - 1, hiddenBit + m % hiddenBit, ?_, .inr (Nat.le_add_right _ _), ?_⟩
      · have hdiv := (Nat.one_le_div_iff (by decide)).mpr (Nat.not_lt.mp hsmall)
        have hsum := Nat.div_add_mod' m hiddenBit
        rw [← Nat.sub_add_cancel hdiv, Nat.succ_mul] at hsum
        omega
      · have hmod : m % hiddenBit < hiddenBit := Nat.mod_lt _ (by decide)
        omega
  have hpos : (0 : ℚ) < 2 ^ ((e : ℤ) - 1074) := zpow_pos two_pos _
  have hbehind : e = 0 ∨ hiddenBit ≤ k + 1 := he.imp_right fun h => Nat.le_succ_of_le h
  rw [Nat.add_assoc, value_mul_hiddenBit_add he hk.le, value_mul_hiddenBit_add hbehind hk]
  exact mul_lt_mul_of_pos_right (Nat.cast_lt.mpr (Nat.lt_succ_self k)) hpos

/-- A magnitude whose power is not below the scale stands for a multiple of it. -/
theorem exists_value_eq {m : Nat} {scale : ℤ} (h : scale ≤ power m) :
    ∃ n : ℕ, value m = n * 2 ^ scale := by
  refine ⟨significand m * 2 ^ (power m - scale).toNat, ?_⟩
  have hpower : ((power m - scale).toNat : ℤ) = power m - scale := Int.toNat_of_nonneg (by omega)
  push_cast
  rw [value, mul_assoc, ← zpow_natCast, ← zpow_add₀ two_ne_zero, hpower, sub_add_cancel]

/-- A magnitude whose power is below the scale has its leading bit below the others'. -/
theorem value_lt {m : Nat} {scale : ℤ} (h : power m < scale) : value m < 2 ^ (scale + 52) := by
  have hsignificand : (significand m : ℚ) < 2 ^ (53 : ℤ) := by exact_mod_cast significand_lt m
  calc value m < 2 ^ (53 : ℤ) * 2 ^ power m :=
        mul_lt_mul_of_pos_right hsignificand (zpow_pos two_pos _)
    _ = 2 ^ (53 + power m) := (zpow_add₀ two_ne_zero _ _).symm
    _ ≤ 2 ^ (scale + 52) := zpow_le_zpow_right₀ one_le_two (by omega)

/-- There is one nearest magnitude: of two that are as near, another one lies between. -/
theorem IsNearest.unique {q : ℚ} {m m' : Nat} (h : IsNearest q m) (h' : IsNearest q m') :
    m = m' := by
  by_contra hne
  wlog hlt : m < m' generalizing m m'
  · exact this h' h (Ne.symm hne) (by omega)
  have htie : |value m' - q| = |value m - q| :=
    le_antisymm (h'.nearest h.finite) (h.nearest h'.finite)
  have heven := h.even h'.finite (Ne.symm hne) htie
  have heven' := h'.even h.finite hne htie.symm
  have hbetween : m + 1 < m' := by omega
  have hbelow := value_strictMono (Nat.lt_succ_self m)
  have habove := value_strictMono hbetween
  have hmiddle : value m' - q = -(value m - q) := by
    rcases abs_eq_abs.mp htie with heq | heq
    · exact absurd (sub_left_inj.mp heq) (value_strictMono hlt).ne'
    · exact heq
  have hnearer : |value (m + 1) - q| < |value m - q| := by
    rw [abs_of_neg (a := value m - q) (by linarith), abs_lt]
    constructor <;> linarith
  exact absurd (h.nearest (hbetween.trans h'.finite)) (not_le.mpr hnearer)

/-! ## Rounding to a scale -/

/-- Whether a positive number is rounded to some steps of a scale that its leading bit tells, if the
scale is not the least one. -/
structure IsRounded (q : ℚ) (scale : ℤ) (steps : ℕ) : Prop where
  half : 2 * |(steps : ℚ) - q * 2 ^ (-scale)| ≤ 1
  even : 2 * |(steps : ℚ) - q * 2 ^ (-scale)| = 1 → steps % 2 = 0
  least : -1074 ≤ scale
  leads : scale = -1074 ∨ (2 : ℚ) ^ (scale + 52) ≤ q
  fits : q < 2 ^ (scale + 53)

namespace IsRounded

variable {q : ℚ} {scale : ℤ} {steps : ℕ}

theorem le_scaled (h : (2 : ℚ) ^ (scale + 52) ≤ q) :
    ((2 ^ 52 : ℕ) : ℚ) ≤ q * 2 ^ (-scale) := by
  have hsum : scale + 52 + -scale = (52 : ℕ) := by omega
  calc ((2 ^ 52 : ℕ) : ℚ) = 2 ^ (scale + 52) * 2 ^ (-scale) := by
        rw [← zpow_add₀ two_ne_zero, hsum, zpow_natCast]
        norm_cast
    _ ≤ q * 2 ^ (-scale) := mul_le_mul_of_nonneg_right h (zpow_pos two_pos _).le

theorem scaled_lt (h : q < 2 ^ (scale + 53)) : q * 2 ^ (-scale) < (2 ^ 53 : ℕ) := by
  have hsum : scale + 53 + -scale = (53 : ℕ) := by omega
  calc q * 2 ^ (-scale) < 2 ^ (scale + 53) * 2 ^ (-scale) :=
        mul_lt_mul_of_pos_right h (zpow_pos two_pos _)
    _ = (2 ^ 53 : ℕ) := by
        rw [← zpow_add₀ two_ne_zero, hsum, zpow_natCast]
        norm_cast

/-- Distances are the same in steps. -/
theorem abs_mul_sub (q : ℚ) (scale : ℤ) (x : ℚ) :
    |x * 2 ^ scale - q| = |x - q * 2 ^ (-scale)| * 2 ^ scale := by
  have hpos : (0 : ℚ) < 2 ^ scale := zpow_pos two_pos _
  rw [← abs_of_pos hpos, ← abs_mul, abs_of_pos hpos, sub_mul, mul_assoc, ← zpow_add₀ two_ne_zero,
    neg_add_cancel, zpow_zero, mul_one]

theorem hiddenBit_le (h : IsRounded q scale steps) (hscale : scale ≠ -1074) :
    hiddenBit ≤ steps := by
  have hlead := le_scaled (h.leads.resolve_left hscale)
  have hhalf := h.half
  have hbelow := neg_abs_le ((steps : ℚ) - q * 2 ^ (-scale))
  have hlt : ((2 ^ 52 : ℕ) : ℚ) < (steps + 1 : ℕ) := by
    rw [Nat.cast_succ]
    linarith
  exact Nat.lt_succ_iff.mp (Nat.cast_lt.mp hlt)

theorem le_two_mul_hiddenBit (h : IsRounded q scale steps) : steps ≤ 2 * hiddenBit := by
  have hfits := scaled_lt h.fits
  have hhalf := h.half
  have hbelow := le_abs_self ((steps : ℚ) - q * 2 ^ (-scale))
  have hlt : (steps : ℚ) < (2 ^ 53 + 1 : ℕ) := by
    rw [Nat.cast_succ]
    linarith
  exact Nat.lt_succ_iff.mp (Nat.cast_lt.mp hlt)

theorem value_eq (h : IsRounded q scale steps) :
    value ((scale + 1074).toNat * hiddenBit + steps) = steps * 2 ^ scale := by
  have hleast := h.least
  have hexponent : ((scale + 1074).toNat : ℤ) - 1074 = scale := by omega
  have hhidden : (scale + 1074).toNat = 0 ∨ hiddenBit ≤ steps := by
    by_cases hscale : scale = -1074
    · exact .inl (by omega)
    · exact .inr (h.hiddenBit_le hscale)
  rw [value_mul_hiddenBit_add hhidden h.le_two_mul_hiddenBit, hexponent]

/-- A magnitude whose power is below the scale is farther away than the steps. -/
theorem abs_sub_lt (h : IsRounded q scale steps) {m : Nat} (hm : power m < scale) :
    |(steps : ℚ) * 2 ^ scale - q| < |value m - q| := by
  have hscale : scale ≠ -1074 := by
    have := le_power m
    omega
  have hlead := h.leads.resolve_left hscale
  have hlt := value_lt hm
  have hpos : (0 : ℚ) < 2 ^ scale := zpow_pos two_pos _
  -- the leading bit by itself is a number of steps
  have hbit : ((2 ^ 52 : ℕ) : ℚ) * 2 ^ scale = 2 ^ (scale + 52) := by
    rw [add_comm, zpow_add₀ two_ne_zero]
    norm_cast
  calc |(steps : ℚ) * 2 ^ scale - q| = |(steps : ℚ) - q * 2 ^ (-scale)| * 2 ^ scale :=
        abs_mul_sub q scale steps
    _ ≤ |((2 ^ 52 : ℕ) : ℚ) - q * 2 ^ (-scale)| * 2 ^ scale :=
        mul_le_mul_of_nonneg_right (abs_sub_le_of_half h.half _) hpos.le
    _ = |2 ^ (scale + 52) - q| := by rw [← abs_mul_sub, hbit]
    _ = q - 2 ^ (scale + 52) := by rw [abs_sub_comm, abs_of_nonneg (sub_nonneg.mpr hlead)]
    _ < q - value m := sub_lt_sub_left hlt q
    _ ≤ |value m - q| := by
        rw [abs_sub_comm]
        exact le_abs_self _

/-- The magnitude that is put together from the scale and the steps is nearest. -/
theorem isNearest (h : IsRounded q scale steps)
    (hfinite : (scale + 1074).toNat * hiddenBit + steps < infinity) :
    IsNearest q ((scale + 1074).toNat * hiddenBit + steps) := by
  have hpos : (0 : ℚ) < 2 ^ scale := zpow_pos two_pos _
  refine ⟨hfinite, ?_, ?_⟩
  · intro m' _
    rw [h.value_eq]
    by_cases hpower : scale ≤ power m'
    · obtain ⟨n, hn⟩ := exists_value_eq hpower
      rw [hn, abs_mul_sub, abs_mul_sub]
      exact mul_le_mul_of_nonneg_right (abs_sub_le_of_half h.half n) hpos.le
    · exact (h.abs_sub_lt (not_le.mp hpower)).le
  · intro m' hm' hne htie
    rw [h.value_eq] at htie
    by_cases hpower : scale ≤ power m'
    · obtain ⟨n, hn⟩ := exists_value_eq hpower
      have hsteps : n ≠ steps := by
        rintro rfl
        exact hne (value_strictMono.injective (hn.trans h.value_eq.symm))
      rw [hn, abs_mul_sub, abs_mul_sub, mul_left_inj' hpos.ne'] at htie
      have heven := h.even (half_of_abs_sub_eq h.half hsteps htie)
      have hhidden : hiddenBit % 2 = 0 := rfl
      rw [Nat.add_mod, Nat.mul_mod, hhidden, heven, Nat.mul_zero]
    · exact absurd htie (h.abs_sub_lt (not_le.mp hpower)).ne'

end IsRounded

/-- What a quotient is rounded to. -/
theorem isRounded_roundHalfEven {above below : Nat} (ha : 0 < above) (hb : 0 < below) {scale : ℤ}
    (hscale : scale = max (leadingPower above below - 52) (-1074)) :
    IsRounded ((above : ℚ) / below) scale
      (roundHalfEven (above * 2 ^ (-scale).toNat) (below * 2 ^ scale.toNat)) := by
  have hpos : (0 : ℚ) < above / below := div_pos (Nat.cast_pos.mpr ha) (Nat.cast_pos.mpr hb)
  have hpos' : 0 < below * 2 ^ scale.toNat := Nat.mul_pos hb (Nat.two_pow_pos _)
  have hhalf := half_roundHalfEven (above * 2 ^ (-scale).toNat) hpos'
  rw [scaled_div] at hhalf
  rw [leadingPower_eq_log ha hb] at hscale
  refine ⟨hhalf.1, hhalf.2, ?_, ?_, ?_⟩
  · omega
  · by_cases hleast : scale = -1074
    · exact .inl hleast
    · right
      have hlog : scale + 52 = Int.log 2 ((above : ℚ) / below) := by omega
      rw [hlog]
      exact Int.zpow_log_le_self Nat.one_lt_two hpos
  · apply (Int.lt_zpow_iff_log_lt Nat.one_lt_two hpos).mpr
    omega

/-- The magnitude that a quotient is rounded to, if it is finite, is nearest. -/
theorem isNearest_roundQuotient {above below : Nat} (ha : 0 < above) (hb : 0 < below)
    (h : roundQuotient above below < infinity) :
    IsNearest ((above : ℚ) / below) (roundQuotient above below) := by
  obtain ⟨scale, hscale⟩ : ∃ scale, scale = max (leadingPower above below - 52) (-1074) := ⟨_, rfl⟩
  have hrounded := isRounded_roundHalfEven ha hb hscale
  simp only [roundQuotient, Nat.pow_eq, ← hscale] at h ⊢
  have hfinite := (min_lt_iff.mp h).resolve_right (lt_irrefl _)
  rw [Nat.min_eq_left hfinite.le]
  exact hrounded.isNearest hfinite

/-- What lies below the last power of two among the finite magnitudes is finite. -/
theorem roundQuotient_lt_infinity {above below : Nat} (ha : 0 < above) (hb : 0 < below)
    (h : (above : ℚ) / below < 2 ^ (1023 : ℤ)) : roundQuotient above below < infinity := by
  obtain ⟨scale, hscale⟩ : ∃ scale, scale = max (leadingPower above below - 52) (-1074) := ⟨_, rfl⟩
  have hsteps := (isRounded_roundHalfEven ha hb hscale).le_two_mul_hiddenBit
  have hpos : (0 : ℚ) < above / below := div_pos (Nat.cast_pos.mpr ha) (Nat.cast_pos.mpr hb)
  have hlead := (Int.lt_zpow_iff_log_lt Nat.one_lt_two hpos).mp h
  rw [leadingPower_eq_log ha hb] at hscale
  have hexponent : (scale + 1074).toNat ≤ 2044 := by omega
  simp only [roundQuotient, leadingPower_eq_log ha hb, Nat.pow_eq, ← hscale]
  refine min_lt_iff.mpr (.inl ?_)
  simp only [hiddenBit, infinity] at hsteps ⊢
  omega

end Number

/-- The magnitude that a decimal is rounded to, if it is finite, is nearest. -/
theorem Decimal.isNearest_round {d : Decimal} (h : d.round < Number.infinity) :
    Number.IsNearest d.value d.round := by
  by_cases hd : d.digits = 0
  · have hround : d.round = 0 := if_pos hd
    rw [value_eq_zero_iff.mpr hd, hround]
    refine ⟨by decide, ?_, fun _ _ _ => rfl⟩
    intro m' _
    rw [Number.value_zero, sub_zero, abs_zero]
    exact abs_nonneg _
  · rw [round_eq_roundQuotient hd] at h ⊢
    rw [← above_div_below]
    exact Number.isNearest_roundQuotient (above_pos hd) d.below_pos h

/-- Naturals are rounded to finite numbers, unless they are very large. -/
theorem Number.isFinite_ofNat {n k : Nat} (h : n < 2 ^ k) (hk : k ≤ 1023) :
    (ofNat n).isFinite = true := by
  rw [isFinite, decide_eq_true_iff, ofNat, magnitude_ofDecimal]
  by_cases hn : n = 0
  · rw [hn]
    decide
  · have hvalue : (⟨n, 0⟩ : Decimal).value = n := by simp [Decimal.value]
    rw [Decimal.round_eq_roundQuotient hn]
    refine roundQuotient_lt_infinity (Decimal.above_pos hn) (Decimal.below_pos _) ?_
    rw [Decimal.above_div_below, hvalue]
    calc (n : ℚ) < 2 ^ (k : ℤ) := by exact_mod_cast h
      _ ≤ 2 ^ (1023 : ℤ) := zpow_le_zpow_right₀ one_le_two (by exact_mod_cast hk)

end JsonAxes

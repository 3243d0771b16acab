import JsonAxes.Outer.Number
import JsonAxes.Proofs.Standard.Exchange
import JsonAxes.Proofs.Token.Cutting

/-!
# Exchanged numerals

What the reader in the outer layer makes of a numeral (`Numeral.exchanged?`) does not depend on what
stands behind it (`Numeral.number?_text_append`). An integer that it makes of one is the integer
that the numeral spells (`Numeral.spells_or_float_of_exchanged?`); other numbers come from an
arithmetic of its own.
-/

set_option autoImplicit false

namespace JsonAxes

namespace Outer

/-! ## Digits and exponents -/

/-- Where no digit had to be dropped, the significand is what the digits spell. -/
theorem significand_gather {significand : Nat} {cs : List Char}
    (h : (gather significand cs).dropped = 0) :
    (gather significand cs).significand
      = cs.foldl (fun n c => 10 * n + Number.digitValue c) significand := by
  induction cs generalizing significand with
  | nil => rfl
  | cons c cs ih =>
      rw [gather] at h ⊢
      split at h
      · next hfits =>
        rw [if_pos hfits, ih h]
        rfl
      · cases h

end Outer

namespace Numeral

open Exchange Outer Token

/-- What stands for the sign in front of a numeral. -/
theorem splitSign_signText (sign? : Option Bool) (ds : Digits) (rest : List Char) :
    Number.splitSign (signText sign? ++ (ds.chars ++ rest))
      = (sign? == some true, ds.chars ++ rest) := by
  rcases sign? with _ | _ | _
  · obtain ⟨c, cs, hcs, hc⟩ := ds.exists_cons
    rw [hcs]
    exact Number.splitSign_of_isDigit hc (cs ++ rest)
  · rfl
  · rfl

theorem exponent?_exponentText_append (x? : Option Exponent) {rest : List Char}
    (h : EndsNumeral rest) :
    Outer.exponent? (exponentText x? ++ rest) = some (exponentValue x?, rest) := by
  cases x? with
  | none =>
      cases rest with
      | nil => rfl
      | cons c rest =>
          obtain ⟨-, -, he, hE⟩ := h c rfl
          exact if_neg (not_or.mpr ⟨he, hE⟩)
  | some x =>
      obtain ⟨letter, hletter, sign?, ds⟩ := x
      have hne : ds.chars.isEmpty = false := List.isEmpty_eq_false_iff.mpr ds.ne_nil
      simp only [exponentText, List.cons_append, List.append_assoc, Outer.exponent?,
        if_pos hletter, splitSign_signText, ds.takeWhile_append h.endsDigits,
        ds.dropWhile_append h.endsDigits, hne, Bool.false_eq_true, if_false, exponentValue,
        beq_iff_eq]

/-! ## Numerals -/

/-- The digits of a numeral, gathered by the reader: those of its whole part, and then
those of its fraction. -/
def gathered (n : Numeral) : Gathered × Gathered :=
  let front := gather 0 n.whole.chars
  (front, gather front.significand (fractionChars n.fraction?))

/-- The exponent by which the reader scales the digits it has gathered. -/
def scale (n : Numeral) : Int :=
  let kept := (fractionChars n.fraction?).length - n.gathered.2.dropped
  n.gathered.1.dropped - kept + exponentValue n.exponent?

/-- What the reader makes of a numeral. -/
def exchanged? (n : Numeral) : Option Exchange :=
  if n.whole.chars.head? = some '0' ∧ 1 < n.whole.chars.length then none
  else if n.fraction?.isNone ∧ n.exponent?.isNone ∧ n.gathered.1.dropped = 0 then
    some (wholeNumber n.negative n.gathered.1.significand)
  else (scaled? n.negative n.gathered.2.significand n.scale).map .float

theorem exchanged?_of_fraction {negative : Bool} {whole ds : Digits} {x? : Option Exponent}
    (hzero : ¬ (whole.chars.head? = some '0' ∧ 1 < whole.chars.length)) :
    exchanged? ⟨negative, whole, some ds, x?⟩
      = (scaled? negative (gather (gather 0 whole.chars).significand ds.chars).significand
          ((gather 0 whole.chars).dropped
            - (ds.chars.length - (gather (gather 0 whole.chars).significand ds.chars).dropped : Nat)
            + exponentValue x?)).map .float := by
  rw [exchanged?, if_neg hzero, if_neg (by simp)]
  rfl

theorem exchanged?_of_exponent {negative : Bool} {whole : Digits} {x : Exponent}
    (hzero : ¬ (whole.chars.head? = some '0' ∧ 1 < whole.chars.length)) :
    exchanged? ⟨negative, whole, none, some x⟩
      = (scaled? negative (gather 0 whole.chars).significand
          ((gather 0 whole.chars).dropped + exponentValue (some x))).map .float := by
  rw [exchanged?, if_neg hzero, if_neg (by simp)]
  simp [scale, gathered, fractionChars, gather]

theorem exchanged?_of_whole {negative : Bool} {whole : Digits}
    (hzero : ¬ (whole.chars.head? = some '0' ∧ 1 < whole.chars.length)) :
    exchanged? ⟨negative, whole, none, none⟩
      = if (gather 0 whole.chars).dropped = 0 then
          some (wholeNumber negative (gather 0 whole.chars).significand)
        else (scaled? negative (gather 0 whole.chars).significand
          (gather 0 whole.chars).dropped).map .float := by
  rw [exchanged?, if_neg hzero]
  simp [scale, gathered, fractionChars, gather, exponentValue]

theorem numberWith?_of_fraction {negative : Bool} {whole ds : Digits} {x? : Option Exponent}
    {rest : List Char} (h : EndsNumeral rest)
    (hzero : ¬ (whole.chars.head? = some '0' ∧ 1 < whole.chars.length)) :
    numberWith? negative whole.chars ('.' :: (ds.chars ++ (exponentText x? ++ rest)))
      = (exchanged? ⟨negative, whole, some ds, x?⟩).map fun y => (y, rest) := by
  have hexponent := exponent?_exponentText_append x? h
  have hdigits := (endsDigits_exponentText_append x? h).1
  have hne : ds.chars.isEmpty = false := List.isEmpty_eq_false_iff.mpr ds.ne_nil
  rw [exchanged?_of_fraction hzero, Option.map_map]
  simp only [numberWith?, ds.takeWhile_append hdigits, ds.dropWhile_append hdigits, hne,
    Bool.false_eq_true, if_false, hexponent]
  rfl

theorem numberWith?_of_exponent {negative : Bool} {whole : Digits} {x : Exponent}
    {rest : List Char} (h : EndsNumeral rest)
    (hzero : ¬ (whole.chars.head? = some '0' ∧ 1 < whole.chars.length)) :
    numberWith? negative whole.chars (exponentText (some x) ++ rest)
      = (exchanged? ⟨negative, whole, none, some x⟩).map fun y => (y, rest) := by
  have hexponent := exponent?_exponentText_append (some x) h
  have hletter : x.letter ≠ '.' := by
    rcases x.isLetter with hx | hx
    · rw [hx]
      decide
    · rw [hx]
      decide
  rw [exchanged?_of_exponent hzero, Option.map_map]
  simp only [exponentText, List.cons_append] at hexponent ⊢
  rw [numberWith?]
  · simp only [if_pos x.isLetter, hexponent]
    rfl
  · exact hletter

/-- Without a fraction and an exponent, the digits are an integer if all of them fit. -/
theorem numberWith?_of_whole {negative : Bool} {whole : Digits} {rest : List Char}
    (h : EndsNumeral rest)
    (hzero : ¬ (whole.chars.head? = some '0' ∧ 1 < whole.chars.length)) :
    numberWith? negative whole.chars rest
      = (exchanged? ⟨negative, whole, none, none⟩).map fun y => (y, rest) := by
  rw [exchanged?_of_whole hzero]
  cases rest with
  | nil =>
      rw [numberWith?]
      split
      · rfl
      · rw [Option.map_map]
        rfl
  | cons c rest =>
      obtain ⟨-, hpoint, he, hE⟩ := h c rfl
      rw [numberWith?, if_neg (not_or.mpr ⟨he, hE⟩)]
      · split
        · rfl
        · rw [Option.map_map]
          rfl
      · exact hpoint

theorem numberWith?_append (n : Numeral) {rest : List Char} (h : EndsNumeral rest)
    (hzero : ¬ (n.whole.chars.head? = some '0' ∧ 1 < n.whole.chars.length)) :
    numberWith? n.negative n.whole.chars
        (fractionText n.fraction? ++ (exponentText n.exponent? ++ rest))
      = n.exchanged?.map fun y => (y, rest) := by
  obtain ⟨negative, whole, fraction?, x?⟩ := n
  cases fraction? with
  | some ds => exact numberWith?_of_fraction h hzero
  | none =>
      cases x? with
      | some x => exact numberWith?_of_exponent h hzero
      | none => exact numberWith?_of_whole h hzero

/-- A number by its sign and what stands behind it. -/
theorem number?_signed (negative : Bool) {c : Char} (hc : c.isDigit = true) (cs : List Char) :
    number? ((if negative then ['-'] else []) ++ c :: cs)
      = let whole := (c :: cs).takeWhile Char.isDigit
        if whole.isEmpty ∨ (whole.head? = some '0' ∧ 1 < whole.length) then none
        else numberWith? negative whole ((c :: cs).dropWhile Char.isDigit) := by
  cases negative with
  | true => rfl
  | false =>
      have hsign : c ≠ '-' := by
        rintro rfl
        exact absurd hc (by decide)
      show number? (c :: cs) = _
      rw [number?]
      rintro more ⟨⟩
      exact hsign rfl

/-- The reader takes a numeral whole, and nothing else. -/
theorem number?_text_append (n : Numeral) {rest : List Char} (h : EndsNumeral rest) :
    number? (n.text ++ rest) = n.exchanged?.map fun y => (y, rest) := by
  obtain ⟨c, cs, hcs, hc⟩ := n.whole.exists_cons
  have hdigits := (endsDigits_exponentText_append n.exponent? h).1
  have hwhole := endsDigits_fractionText n.fraction? hdigits
  have hne : n.whole.chars.isEmpty = false := List.isEmpty_eq_false_iff.mpr n.whole.ne_nil
  have hsigned := number?_signed n.negative hc
    (cs ++ (fractionText n.fraction? ++ (exponentText n.exponent? ++ rest)))
  rw [← List.cons_append, ← hcs, n.whole.takeWhile_append hwhole, n.whole.dropWhile_append hwhole]
    at hsigned
  rw [text, body, List.append_assoc, List.append_assoc, List.append_assoc, hsigned]
  simp only [hne, Bool.false_eq_true, false_or]
  split
  · next hzero =>
    rw [exchanged?, if_pos hzero]
    rfl
  · next hzero => exact n.numberWith?_append h hzero

/-- What is made of a whole number is the integer of its sign and size, but for numbers that are too
large and for a negative zero. -/
theorem integer_or_float_of_wholeNumber (negative : Bool) (size : Nat) :
    (∃ i : Int, i.natAbs = size ∧ negative = decide (i < 0)
      ∧ wholeNumber negative size = .integer i)
    ∨ ∃ z, wholeNumber negative size = .float z := by
  cases negative with
  | false =>
      refine .inl ⟨size, Int.natAbs_natCast size, ?_, rfl⟩
      rw [eq_comm, decide_eq_false_iff_not]
      omega
  | true =>
      rw [wholeNumber, if_pos rfl]
      split
      · next hsize =>
        refine .inl ⟨-size, by omega, ?_, rfl⟩
        rw [eq_comm, decide_eq_true_iff]
        omega
      · exact .inr ⟨_, rfl⟩

/-- An integer that is made of a numeral is the one that the numeral spells. -/
theorem spells_or_float_of_exchanged? {n : Numeral} {y : Exchange} (h : n.exchanged? = some y) :
    (∃ i, n.Spells i ∧ y = .integer i) ∨ ∃ z, y = .float z := by
  unfold exchanged? at h
  split at h
  · cases h
  · split at h
    · next hwhole =>
      obtain ⟨hfraction, hexponent, hdropped⟩ := hwhole
      rw [Option.isNone_iff_eq_none] at hfraction hexponent
      cases h
      refine (integer_or_float_of_wholeNumber n.negative _).imp_left ?_
      rintro ⟨i, hsize, hnegative, hi⟩
      refine ⟨i, ⟨hfraction, hexponent, ?_, hnegative⟩, hi⟩
      rw [hsize]
      exact (significand_gather hdropped).symm
    · obtain ⟨z, -, heq⟩ := Option.map_eq_some_iff.mp h
      exact .inr ⟨z, heq.symm⟩

end Numeral

end JsonAxes

import JsonAxes.Number.Format
import JsonAxes.Proofs.Number.Rounding
import JsonAxes.Proofs.Text.Runs

/-!
# Numerals

A numeral is a number as it is written in JSON: a sign, digits, an optional fraction, an optional
exponent. It reads as the number nearest to the decimal it spells (`Numeral.ofText?_text`). What a
format writes for a finite number is a numeral that spells a decimal nearest to that number, without
a zero too many in front (`NumberFormat.exists_numeral`), so that it reads back
(`NumberFormat.ofText?_write`).
-/

set_option autoImplicit false

namespace JsonAxes

/-- Decimal digits, one at least. -/
structure Digits where
  chars : List Char
  ne_nil : chars ≠ []
  isDigit : ∀ c ∈ chars, c.isDigit = true

/-- An exponent as it is written; the sign says whether it is negative. -/
structure Numeral.Exponent where
  letter : Char
  isLetter : letter = 'e' ∨ letter = 'E'
  sign? : Option Bool
  digits : Digits

/-- A number as it is written. -/
structure Numeral where
  negative : Bool
  whole : Digits
  fraction? : Option Digits
  exponent? : Option Numeral.Exponent

namespace Numeral

/-- A sign that may be left out. -/
def signText : Option Bool → List Char
  | none => []
  | some true => ['-']
  | some false => ['+']

/-- The text of an optional fraction. -/
def fractionText : Option Digits → List Char
  | none => []
  | some ds => '.' :: ds.chars

/-- The text of an optional exponent. -/
def exponentText : Option Exponent → List Char
  | none => []
  | some x => x.letter :: (signText x.sign? ++ x.digits.chars)

/-- The value of an optional exponent. -/
def exponentValue : Option Exponent → Int
  | none => 0
  | some x => if x.sign? = some true then -Number.digitsValue x.digits.chars
      else Number.digitsValue x.digits.chars

/-- The digits of an optional fraction. -/
def fractionChars (ds? : Option Digits) : List Char := (ds?.map Digits.chars).getD []

/-- A numeral without its sign. -/
def body (n : Numeral) : List Char :=
  n.whole.chars ++ (fractionText n.fraction? ++ exponentText n.exponent?)

/-- The text of a numeral. -/
def text (n : Numeral) : List Char := (if n.negative then ['-'] else []) ++ n.body

/-- The decimal that a numeral spells, its sign aside. -/
def decimal (n : Numeral) : Decimal :=
  ⟨Number.digitsValue (n.whole.chars ++ fractionChars n.fraction?),
    exponentValue n.exponent? - (fractionChars n.fraction?).length⟩

/-- Whether the whole part of a numeral is zero or begins with another digit. -/
def IsStandard (n : Numeral) : Prop := n.whole.chars = ['0'] ∨ n.whole.chars.head? ≠ some '0'

/-- The number that a numeral is rounded to. -/
def number (n : Numeral) : Number := .ofDecimal n.negative n.decimal

/-! ### What a numeral is made of -/

/-- Whether a character stands in numerals: a digit or one of a few marks. -/
def IsNumeral (c : Char) : Prop := c.isDigit = true ∨ c ∈ ['-', '+', '.', 'e', 'E']

theorem isNumeral_of_mem_signText {sign? : Option Bool} {c : Char} (h : c ∈ signText sign?) :
    IsNumeral c := by
  rcases sign? with _ | _ | _
  · cases h
  · rw [List.mem_singleton.mp h]
    exact .inr (by decide)
  · rw [List.mem_singleton.mp h]
    exact .inr (by decide)

theorem isNumeral_of_mem_fractionText {ds? : Option Digits} {c : Char}
    (h : c ∈ fractionText ds?) : IsNumeral c := by
  cases ds? with
  | none => cases h
  | some ds =>
      rcases List.mem_cons.mp h with rfl | hc
      · exact .inr (by decide)
      · exact .inl (ds.isDigit c hc)

theorem isNumeral_of_mem_exponentText {x? : Option Exponent} {c : Char}
    (h : c ∈ exponentText x?) : IsNumeral c := by
  cases x? with
  | none => cases h
  | some x =>
      rcases List.mem_cons.mp h with rfl | hc
      · rcases x.isLetter with hletter | hletter
        · exact .inr (by rw [hletter]; decide)
        · exact .inr (by rw [hletter]; decide)
      · rcases List.mem_append.mp hc with hsign | hdigit
        · exact isNumeral_of_mem_signText hsign
        · exact .inl (x.digits.isDigit c hdigit)

theorem isNumeral_of_mem_text {n : Numeral} {c : Char} (h : c ∈ n.text) : IsNumeral c := by
  simp only [text, body, List.mem_append] at h
  rcases h with hsign | hwhole | hfraction | hexponent
  · split at hsign
    · rw [List.mem_singleton.mp hsign]
      exact .inr (by decide)
    · cases hsign
  · exact .inl (n.whole.isDigit c hwhole)
  · exact isNumeral_of_mem_fractionText hfraction
  · exact isNumeral_of_mem_exponentText hexponent

theorem backslash_notMem_text (n : Numeral) : '\\' ∉ n.text := by
  intro hmem
  rcases isNumeral_of_mem_text hmem with hdigit | hmark
  · exact absurd hdigit (by decide)
  · exact absurd hmark (by decide)

end Numeral

/-! ## Runs of digits -/

/-- Whether a text does not go on with another digit. -/
def EndsDigits (rest : List Char) : Prop := ∀ c ∈ rest.head?, c.isDigit = false

namespace Digits

variable {rest : List Char}

theorem takeWhile_append (ds : Digits) (h : EndsDigits rest) :
    (ds.chars ++ rest).takeWhile Char.isDigit = ds.chars := Text.takeWhile_append ds.isDigit h

theorem dropWhile_append (ds : Digits) (h : EndsDigits rest) :
    (ds.chars ++ rest).dropWhile Char.isDigit = rest := Text.dropWhile_append ds.isDigit h

theorem exists_cons (ds : Digits) : ∃ c cs, ds.chars = c :: cs ∧ c.isDigit = true := by
  obtain ⟨c, cs, h⟩ := List.exists_cons_of_ne_nil ds.ne_nil
  exact ⟨c, cs, h, ds.isDigit c (by rw [h]; exact List.mem_cons_self)⟩

theorem all_isDigit (ds : Digits) : ds.chars.all Char.isDigit = true :=
  List.all_eq_true.mpr ds.isDigit

end Digits

theorem endsDigits_cons {c : Char} (h : c.isDigit = false) (rest : List Char) :
    EndsDigits (c :: rest) := by
  intro d hd
  cases hd
  exact h

theorem endsDigits_nil : EndsDigits [] := nofun

/-! ## Reading a numeral -/

namespace Number

theorem splitSign_of_isDigit {c : Char} (h : c.isDigit = true) (rest : List Char) :
    splitSign (c :: rest) = (false, c :: rest) := by
  rw [splitSign]
  · rintro r ⟨⟩
    exact absurd h (by decide)
  · rintro r ⟨⟩
    exact absurd h (by decide)

theorem toLower_of_isDigit {c : Char} (h : c.isDigit = true) : c.toLower = c := by
  rw [Char.isDigit, Bool.and_eq_true, decide_eq_true_iff, decide_eq_true_iff] at h
  refine dif_neg ?_
  rintro ⟨hA, -⟩
  exact absurd (UInt32.le_trans hA h.2) (by decide)

/-- A text that begins with a digit is none of the words for infinity and for no number. -/
theorem map_toLower_ne {c d : Char} (h : c.isDigit = true) (hd : d.isDigit = false)
    (rest word : List Char) : (c :: rest).map Char.toLower ≠ d :: word := by
  rw [List.map_cons, toLower_of_isDigit h]
  intro heq
  rw [(List.cons.inj heq).1, hd] at h
  cases h

end Number

namespace Numeral

open Number

theorem exponentOfText?_exponentText (x? : Option Exponent) :
    exponentOfText? (exponentText x?) = some (exponentValue x?) := by
  cases x? with
  | none => rfl
  | some x =>
      obtain ⟨letter, hletter, sign?, ds⟩ := x
      have hsplit : splitSign (signText sign? ++ ds.chars) = (sign? == some true, ds.chars) := by
        rcases sign? with _ | _ | _
        · obtain ⟨c, cs, hcs, hc⟩ := ds.exists_cons
          rw [hcs]
          exact splitSign_of_isDigit hc cs
        · rfl
        · rfl
      simp only [exponentText, exponentOfText?, if_pos hletter, hsplit, ds.all_isDigit, ne_eq,
        ds.ne_nil, not_false_eq_true, and_self, if_true, beq_iff_eq, exponentValue]

theorem endsDigits_exponentText (x? : Option Exponent) : EndsDigits (exponentText x?) := by
  cases x? with
  | none => exact endsDigits_nil
  | some x =>
      apply endsDigits_cons
      rcases x.isLetter with h | h <;> rw [h] <;> rfl

theorem endsDigits_fractionText (ds? : Option Digits) {rest : List Char} (h : EndsDigits rest) :
    EndsDigits (fractionText ds? ++ rest) := by
  cases ds? with
  | none => exact h
  | some ds => exact endsDigits_cons rfl _

/-- What stands for an optional fraction in front of an exponent is that fraction. -/
theorem decimalOfText?_body (n : Numeral) : decimalOfText? n.body = some n.decimal := by
  obtain ⟨negative, whole, fraction?, x?⟩ := n
  have hrest := endsDigits_exponentText x?
  have hwhole := endsDigits_fractionText fraction? hrest
  have hne : ∀ cs, whole.chars ++ cs ≠ [] := fun cs h =>
    whole.ne_nil (List.append_eq_nil_iff.mp h).1
  rw [decimalOfText?, body, whole.takeWhile_append hwhole, whole.dropWhile_append hwhole]
  cases fraction? with
  | none =>
      -- what stands behind the digits is an exponent, which begins with its letter
      have hpoint : ∀ r, exponentText x? ≠ '.' :: r := by
        intro r h
        rcases x? with _ | x
        · cases h
        · rcases x.isLetter with hx | hx
          · exact absurd (hx.symm.trans (List.cons.inj h).1) (by decide)
          · exact absurd (hx.symm.trans (List.cons.inj h).1) (by decide)
      simp only [fractionText, List.nil_append, decimal, fractionChars]
      split
      · next h => exact absurd (List.append_eq_nil_iff.mp h).1 whole.ne_nil
      · rw [exponentOfText?_exponentText]
        simp
  | some ds =>
      simp only [fractionText, List.cons_append, decimal, fractionChars, Option.map_some,
        Option.getD_some, ds.takeWhile_append hrest, ds.dropWhile_append hrest, if_neg (hne _),
        exponentOfText?_exponentText]

/-- A numeral reads as the number nearest to the decimal it spells. -/
theorem ofText?_text (n : Numeral) : ofText? n.text = some (ofDecimal n.negative n.decimal) := by
  obtain ⟨c, cs, hcs, hc⟩ := n.whole.exists_cons
  have hbody : n.body = c :: (cs ++ (fractionText n.fraction? ++ exponentText n.exponent?)) := by
    rw [body, hcs, List.cons_append]
  have hsplit : splitSign n.text = (n.negative, n.body) := by
    rw [text]
    cases n.negative with
    | true => rfl
    | false =>
        simp only [Bool.false_eq_true, if_false, List.nil_append]
        rw [hbody]
        exact splitSign_of_isDigit hc _
  -- behind its sign a numeral begins with a digit, as none of the words does
  have hinf : ∀ word, n.body.map Char.toLower ≠ 'i' :: word := by
    rw [hbody]
    exact map_toLower_ne hc rfl _
  have hnan : ∀ word, n.body.map Char.toLower ≠ 'n' :: word := by
    rw [hbody]
    exact map_toLower_ne hc rfl _
  have hinf' : ¬ (n.body.map Char.toLower = "inf".toList
      ∨ n.body.map Char.toLower = "infinity".toList) := by
    rintro (h | h)
    · exact hinf _ h
    · exact hinf _ h
  have hnan' : ¬ n.body.map Char.toLower = "nan".toList := hnan _
  simp only [ofText?, hsplit, if_neg hinf', if_neg hnan', decimalOfText?_body, Option.map_some]

end Numeral

/-! ## Formats -/

namespace Number

theorem digitsValue_eq (cs : List Char) : digitsValue cs = Nat.ofDigitChars 10 cs 0 :=
  Nat.ofDigitChars_eq_foldl.symm

/-- Zeros behind digits multiply, and zeros in front do nothing. -/
theorem digitsValue_append_zeros (cs : List Char) (n : Nat) :
    digitsValue (cs ++ List.replicate n '0') = digitsValue cs * 10 ^ n := by
  rw [digitsValue_eq, Nat.ofDigitChars_append, Nat.ofDigitChars_replicate_zero, ← digitsValue_eq,
    Nat.mul_comm]

theorem digitsValue_zeros_append (n : Nat) (cs : List Char) :
    digitsValue (List.replicate n '0' ++ cs) = digitsValue cs := by
  rw [digitsValue_eq, Nat.ofDigitChars_append, Nat.ofDigitChars_replicate_zero, Nat.mul_zero,
    ← digitsValue_eq]

end Number

namespace NumberFormat

open Number Numeral

/-- The digits of a natural, with zeros in front and behind. -/
def padded (front n behind : Nat) : Digits where
  chars := List.replicate front '0' ++ (digitChars n ++ List.replicate behind '0')
  ne_nil := by simp [digitChars]
  isDigit := by
    intro c hc
    simp only [List.mem_append, List.mem_replicate] at hc
    rcases hc with ⟨-, rfl⟩ | hc | ⟨-, rfl⟩
    · rfl
    · exact Nat.isDigit_of_mem_toDigits (by decide) (by decide) hc
    · rfl

theorem digitsValue_padded (front n behind : Nat) :
    digitsValue (padded front n behind).chars = n * 10 ^ behind := by
  rw [padded, digitsValue_zeros_append, digitsValue_append_zeros, digitsValue_eq, digitChars,
    Nat.ofDigitChars_ten_toDigits]

/-- The digits of a natural, split in front of the last ones. -/
theorem exists_split (ds : Digits) {fraction : Nat} (h : fraction < ds.chars.length)
    (hfraction : 0 < fraction) :
    ∃ whole part : Digits, whole.chars = ds.chars.take (ds.chars.length - fraction)
      ∧ part.chars = ds.chars.drop (ds.chars.length - fraction) ∧ part.chars.length = fraction := by
  refine ⟨⟨ds.chars.take (ds.chars.length - fraction), ?_, ?_⟩,
    ⟨ds.chars.drop (ds.chars.length - fraction), ?_, ?_⟩, rfl, rfl, ?_⟩
  · rw [← List.length_pos_iff, List.length_take]
    omega
  · exact fun c hc => ds.isDigit c (List.mem_of_mem_take hc)
  · rw [← List.length_pos_iff, List.length_drop]
    omega
  · exact fun c hc => ds.isDigit c (List.mem_of_mem_drop hc)
  · rw [List.length_drop]
    omega

/-- The digits of a positive natural, whatever zeros stand behind them, do not begin with one. -/
theorem head?_padded {n : Nat} (hn : n ≠ 0) (behind : Nat) :
    (padded 0 n behind).chars.head? ≠ some '0' := by
  have hne : digitChars n ≠ [] := Nat.toDigits_ne_nil
  show (digitChars n ++ List.replicate behind '0').head? ≠ some '0'
  rw [List.head?_append_of_ne_nil _ hne]
  exact Text.head?_toDigits (Nat.pos_of_ne_zero hn)

/-- Digits with zeros behind them are a standard numeral, with or without a zero behind a point. -/
theorem exists_whole (f : NumberFormat) (negative : Bool) {digits exponent : Nat}
    (hzero : digits = 0 → exponent = 0) :
    ∃ n : Numeral, n.negative = negative ∧ n.IsStandard ∧ n.body = f.positional ⟨digits, exponent⟩
      ∧ n.decimal.value = (⟨digits, exponent⟩ : Decimal).value := by
  have hstandard : (padded 0 digits exponent).chars = ['0']
      ∨ (padded 0 digits exponent).chars.head? ≠ some '0' := by
    by_cases hdigits : digits = 0
    · exact .inl (by rw [hdigits, hzero hdigits]; rfl)
    · exact .inr (head?_padded hdigits _)
  cases hkeeps : f.keepsPointZero with
  | false =>
      refine ⟨⟨negative, padded 0 digits exponent, none, none⟩, rfl, hstandard, ?_, ?_⟩
      · simp [body, fractionText, exponentText, positional, padded, hkeeps]
      · simp [decimal, fractionChars, exponentValue, digitsValue_padded, Decimal.value]
  | true =>
      refine ⟨⟨negative, padded 0 digits exponent, some (padded 0 0 0), none⟩, rfl, hstandard,
        ?_, ?_⟩
      · simp [body, fractionText, exponentText, positional, padded, hkeeps, digitChars]
      · -- the zero behind the point multiplies by ten, and the point divides by it
        have hdigits : digitsValue ((padded 0 digits exponent).chars ++ (padded 0 0 0).chars)
            = digits * 10 ^ exponent * 10 ^ 1 := by
          rw [← digitsValue_padded 0 digits exponent, ← digitsValue_append_zeros]
          rfl
        have hlength : ((padded 0 0 0).chars.length : Int) = 1 := rfl
        simp only [decimal, fractionChars, Option.map_some, Option.getD_some, hdigits,
          exponentValue, Decimal.value, hlength]
        push_cast
        rw [zpow_neg_one, mul_inv_cancel_right₀ (by norm_num), zpow_natCast]

/-- Digits with a point in front of them or among them are a standard numeral. -/
theorem exists_withPoint (negative : Bool) {digits fraction : Nat} (hdigits : digits ≠ 0)
    (hfraction : 0 < fraction) :
    ∃ n : Numeral, n.negative = negative ∧ n.IsStandard
      ∧ n.body = withPoint (digitChars digits) fraction ∧ n.decimal = ⟨digits, 0 - fraction⟩ := by
  rw [withPoint]
  by_cases hlength : (digitChars digits).length ≤ fraction
  · -- the point stands in front of all digits, with zeros between
    obtain ⟨part, hpart⟩ : ∃ part, part = padded (fraction - (digitChars digits).length) digits 0 :=
      ⟨_, rfl⟩
    refine ⟨⟨negative, padded 0 0 0, some part, none⟩, rfl, .inl rfl, ?_, ?_⟩
    · rw [if_pos hlength]
      simp [body, fractionText, exponentText, hpart, padded, digitChars]
    · have happend : (padded 0 0 0).chars ++ part.chars
          = (padded (fraction - (digitChars digits).length + 1) digits 0).chars := by
        simp [hpart, padded, digitChars, List.replicate_succ]
      have hcount : part.chars.length = fraction := by
        simp only [hpart, padded, List.length_append, List.length_replicate]
        omega
      simp only [decimal, fractionChars, Option.map_some, Option.getD_some, happend, hcount,
        digitsValue_padded, exponentValue, Nat.pow_zero, Nat.mul_one]
  · -- the point stands among the digits
    obtain ⟨whole, part, hwhole, hpart, hcount⟩ :=
      exists_split (padded 0 digits 0)
        (show fraction < _ by simpa [padded] using hlength) hfraction
    have hstandard : whole.chars.head? ≠ some '0' := by
      rw [hwhole, List.head?_take]
      split
      · exact Option.some_ne_none _ ∘ Eq.symm
      · exact head?_padded hdigits 0
    refine ⟨⟨negative, whole, some part, none⟩, rfl, .inr hstandard, ?_, ?_⟩
    · rw [if_neg hlength]
      simp [body, fractionText, exponentText, hwhole, hpart, padded]
    · have hvalue : digitsValue (whole.chars ++ part.chars) = digits := by
        rw [hwhole, hpart, List.take_append_drop, digitsValue_padded, Nat.pow_zero, Nat.mul_one]
      simp only [decimal, fractionChars, Option.map_some, Option.getD_some, hvalue, hcount,
        exponentValue]

/-- Positional notation is a standard numeral that spells the same number. -/
theorem exists_positional (f : NumberFormat) (negative : Bool) {d : Decimal}
    (hzero : d.digits = 0 → d.exponent = 0) :
    ∃ n : Numeral, n.negative = negative ∧ n.IsStandard ∧ n.body = f.positional d
      ∧ n.decimal.value = d.value := by
  obtain ⟨digits, exponent⟩ := d
  by_cases hexponent : 0 ≤ exponent
  · obtain ⟨k, rfl⟩ := Int.eq_ofNat_of_zero_le hexponent
    exact exists_whole f negative fun hdigits => Int.ofNat_inj.mp (hzero hdigits)
  · have hdigits : digits ≠ 0 := fun h => hexponent (Int.le_of_eq (hzero h).symm)
    obtain ⟨n, hnegative, hstandard, hbody, hdecimal⟩ :=
      exists_withPoint negative hdigits (show 0 < (-exponent).toNat by omega)
    refine ⟨n, hnegative, hstandard, ?_, ?_⟩
    · rw [hbody, positional, if_neg hexponent]
    · have hneg : 0 - ((-exponent).toNat : Int) = exponent := by omega
      rw [hdecimal, hneg]

/-- An exponent with its sign. -/
theorem exists_exponent (e : Int) :
    ∃ x : Exponent, exponentText (some x) = ['e', if e < 0 then '-' else '+'] ++ digitChars e.natAbs
      ∧ exponentValue (some x) = e := by
  have hvalue : digitsValue (padded 0 e.natAbs 0).chars = e.natAbs := by
    rw [digitsValue_padded, Nat.pow_zero, Nat.mul_one]
  refine ⟨⟨'e', .inl rfl, some (decide (e < 0)), padded 0 e.natAbs 0⟩, ?_, ?_⟩
  · by_cases hneg : e < 0 <;> simp [exponentText, signText, hneg, padded]
  · by_cases hneg : e < 0
    · simp only [exponentValue, hneg, decide_true, if_true, hvalue]
      omega
    · simp only [exponentValue, hneg, decide_false, Option.some.injEq, Bool.false_eq_true, if_false,
        hvalue]
      omega

/-- A fraction of some digits, or none without digits. -/
theorem exists_fraction {cs : List Char} (h : ∀ c ∈ cs, c.isDigit = true) :
    ∃ ds? : Option Digits, fractionText ds? = (if cs.isEmpty then [] else '.' :: cs)
      ∧ fractionChars ds? = cs := by
  by_cases hnil : cs = []
  · exact ⟨none, by rw [hnil]; rfl, hnil.symm⟩
  · refine ⟨some ⟨cs, hnil, h⟩, ?_, rfl⟩
    rw [if_neg (mt List.isEmpty_iff.mp hnil)]
    rfl

/-- A digit, a fraction and an exponent are a standard numeral that spells the same decimal. -/
theorem exists_exponential (negative : Bool) {d : Decimal} (hd : d.digits ≠ 0) :
    ∃ n : Numeral, n.negative = negative ∧ n.IsStandard ∧ n.body = exponential d
      ∧ n.decimal = d := by
  obtain ⟨c, cs, hcs⟩ := List.exists_cons_of_ne_nil (show digitChars d.digits ≠ [] from
    Nat.toDigits_ne_nil)
  have hisDigit : ∀ x ∈ c :: cs, x.isDigit = true := by
    rw [← hcs]
    exact fun x hx => Nat.isDigit_of_mem_toDigits (by decide) (by decide) hx
  have hhead := Text.head?_toDigits (Nat.pos_of_ne_zero hd)
  rw [← digitChars, hcs] at hhead
  have hdigits : digitsValue (c :: cs) = d.digits := by
    rw [← hcs, digitsValue_eq, digitChars, Nat.ofDigitChars_ten_toDigits]
  obtain ⟨fraction?, hfraction, hchars⟩ :=
    exists_fraction fun x hx => hisDigit x (List.mem_cons_of_mem c hx)
  obtain ⟨x, hx, hvalue⟩ := exists_exponent (d.exponent + (c :: cs).length - 1)
  refine ⟨⟨negative, ⟨[c], List.cons_ne_nil c [],
    List.forall_mem_singleton.mpr (hisDigit c List.mem_cons_self)⟩, fraction?, some x⟩, rfl,
    .inr hhead, ?_, ?_⟩
  · simp only [body, exponential, hcs, hfraction, hx]
    simp
  · simp only [decimal, hvalue, hchars, List.singleton_append, hdigits, List.length_cons]
    push_cast
    congr 1
    omega

/-- What is written for a finite number is a standard numeral of that number. -/
theorem exists_numeral (f : NumberFormat) {n : Number} (h : n.isFinite = true) :
    ∃ x : Numeral, x.IsStandard ∧ f.write n = x.text ∧ x.number = n := by
  have hfinite : n.magnitude < infinity := of_decide_eq_true h
  obtain ⟨x, hnegative, hstandard, hbody, hround⟩ : ∃ x : Numeral, x.negative = n.isNegative
      ∧ x.IsStandard ∧ x.body = f.magnitude n.magnitude ∧ x.decimal.round = n.magnitude := by
    rw [NumberFormat.magnitude]
    by_cases hzero : n.magnitude = 0
    · obtain ⟨x, hnegative, hstandard, hbody, hvalue⟩ :=
        exists_positional f n.isNegative (d := ⟨0, 0⟩) fun _ => rfl
      refine ⟨x, hnegative, hstandard, by rw [if_pos hzero, hbody], ?_⟩
      rw [Decimal.round_congr hvalue, hzero]
      rfl
    · rw [if_neg hzero]
      obtain ⟨d, hd⟩ : ∃ d, d = Decimal.shortest f.tie n.magnitude := ⟨_, rfl⟩
      have hround : d.round = n.magnitude := by
        rw [hd]
        exact Decimal.round_shortest _ (Nat.pos_of_ne_zero hzero) hfinite
      have hdigits : d.digits ≠ 0 := by
        intro hnone
        rw [Decimal.round, if_pos hnone] at hround
        exact hzero hround.symm
      simp only [← hd]
      split
      · obtain ⟨x, hnegative, hstandard, hbody, hvalue⟩ :=
          exists_positional f n.isNegative fun hnone => absurd hnone hdigits
        exact ⟨x, hnegative, hstandard, hbody, (Decimal.round_congr hvalue).trans hround⟩
      · obtain ⟨x, hnegative, hstandard, hbody, hdecimal⟩ :=
          exists_exponential n.isNegative hdigits
        exact ⟨x, hnegative, hstandard, hbody, by rw [hdecimal, hround]⟩
  refine ⟨x, hstandard, ?_, ?_⟩
  · rw [write, text, hnegative, hbody]
  · rw [number, ofDecimal, hnegative, hround, ofParts_isNegative_magnitude]

/-- A finite number reads back from what is written for it, its sign and the sign of zero
included. -/
theorem ofText?_write (f : NumberFormat) {n : Number} (h : n.isFinite = true) :
    ofText? (f.write n) = some n := by
  obtain ⟨x, -, htext, hx⟩ := exists_numeral f h
  rw [htext, ofText?_text, ← number, hx]

end NumberFormat

end JsonAxes

import JsonAxes.Text.Escape

/-!
# Escapes and what they resolve to

One equation for each kind of piece that the body of a string literal is made of: a character as it
is, an escape by letter, an escape by number. A character spelled by number resolves to itself
(`unescape_charEscape_append`), whether it takes one unit or a pair of surrogates.
-/

set_option autoImplicit false

namespace JsonAxes.Text

/-! ## Hexadecimal digits -/

theorem isHexDigit_hexDigit {n : Nat} (h : n < 16) : isHexDigit (hexDigit n) = true := by
  have hall : ∀ m < 16, isHexDigit (hexDigit m) = true := by decide
  exact hall n h

theorem hexValue_hexDigit {n : Nat} (h : n < 16) : hexValue (hexDigit n) = n := by
  have hall : ∀ m < 16, hexValue (hexDigit m) = m := by decide
  exact hall n h

theorem hexValue_lt {c : Char} (h : isHexDigit c = true) : hexValue c < 16 := by
  simp only [isHexDigit, Bool.or_eq_true, Bool.and_eq_true, decide_eq_true_eq] at h
  rw [hexValue]
  have hle : ∀ d : Char, c ≤ d → c.toNat ≤ d.toNat := fun _ h => h
  split
  · next hdigit =>
    have hnine := hle '9' (of_decide_eq_true (Bool.and_eq_true_iff.mp hdigit).2)
    simp only [Char.reduceToNat] at hnine ⊢
    omega
  · next hdigit =>
    rcases h with (hdigit' | ⟨hlower, hf⟩) | ⟨-, hf⟩
    · exact absurd hdigit' hdigit
    · have hlast := hle 'f' hf
      simp only [Char.reduceToNat, if_pos hlower] at hlast ⊢
      omega
    · have hlast := hle 'F' hf
      have hupper : ¬ 'a' ≤ c := by
        intro hlower
        exact absurd (Char.le_trans hlower hf) (by decide)
      simp only [Char.reduceToNat, if_neg hupper] at hlast ⊢
      omega

/-- Four digits spell a 16-bit unit. -/
theorem hexNumber_lt {a b c d : Char} (ha : isHexDigit a = true) (hb : isHexDigit b = true)
    (hc : isHexDigit c = true) (hd : isHexDigit d = true) : hexNumber [a, b, c, d] < 0x10000 := by
  have ha' := hexValue_lt ha
  have hb' := hexValue_lt hb
  have hc' := hexValue_lt hc
  have hd' := hexValue_lt hd
  simp only [hexNumber, List.foldl_cons, List.foldl_nil]
  omega

/-- The four digits that spell a unit. -/
def unitDigits (unit : Nat) : List Char :=
  [hexDigit (unit / 0x1000 % 16), hexDigit (unit / 0x100 % 16), hexDigit (unit / 0x10 % 16),
    hexDigit (unit % 16)]

theorem unitEscape_eq (unit : Nat) : unitEscape unit = '\\' :: 'u' :: unitDigits unit := rfl

/-- The escapes of a character are made of backslashes, the letter `u` and lower-case digits. -/
theorem eq_of_mem_charEscape {c d : Char} (h : d ∈ charEscape c) :
    d = '\\' ∨ d = 'u' ∨ ∃ n < 16, d = hexDigit n := by
  obtain ⟨unit, -, hd⟩ := List.mem_flatMap.mp h
  have hdigit : ∀ n : Nat, ∃ m < 16, hexDigit (n % 16) = hexDigit m :=
    fun n => ⟨n % 16, Nat.mod_lt n (by decide), rfl⟩
  simp only [unitEscape, List.mem_cons, List.not_mem_nil, or_false] at hd
  rcases hd with rfl | rfl | rfl | rfl | rfl | rfl
  · exact .inl rfl
  · exact .inr (.inl rfl)
  · exact .inr (.inr (hdigit _))
  · exact .inr (.inr (hdigit _))
  · exact .inr (.inr (hdigit _))
  · exact .inr (.inr (hdigit _))

/-- The digits of a unit are read as that unit. -/
theorem hexUnit?_unitDigits {unit : Nat} (h : unit < 0x10000) (rest : List Char) :
    hexUnit? (unitDigits unit ++ rest) = some (unit, rest) := by
  have hdigit : ∀ n : Nat, n % 16 < 16 := fun n => Nat.mod_lt n (by decide)
  simp only [unitDigits, List.cons_append, List.nil_append, hexUnit?,
    isHexDigit_hexDigit (hdigit _), Bool.and_self, if_true, hexNumber, List.foldl_cons,
    List.foldl_nil, hexValue_hexDigit (hdigit _)]
  congr 2
  omega

/-! ## Units of a character -/

theorem charOfCode?_toNat (c : Char) : charOfCode? c.toNat = some c := by
  have h : c.toNat.isValidChar := c.valid
  rw [charOfCode?, dif_pos h]
  rfl

theorem toNat_of_charOfCode? {code : Nat} {c : Char} (h : charOfCode? code = some c) :
    c.toNat = code := by
  by_cases hvalid : code.isValidChar
  · rw [charOfCode?, dif_pos hvalid] at h
    cases h
    rfl
  · rw [charOfCode?, dif_neg hvalid] at h
    cases h

theorem isSome_charOfCode?_iff {code : Nat} :
    (charOfCode? code).isSome = true ↔ code.isValidChar := by
  by_cases hvalid : code.isValidChar
  · rw [charOfCode?, dif_pos hvalid]
    exact iff_of_true rfl hvalid
  · rw [charOfCode?, dif_neg hvalid]
    exact iff_of_false Bool.false_ne_true hvalid

/-- The code point of a character is no surrogate. -/
theorem toNat_lt_or_lt (c : Char) : c.toNat < 0xD800 ∨ (0xDFFF < c.toNat ∧ c.toNat < 0x110000) :=
  c.valid

theorem isHighSurrogate_iff {unit : Nat} :
    isHighSurrogate unit = true ↔ 0xD800 ≤ unit ∧ unit < 0xDC00 := by
  rw [isHighSurrogate, Bool.and_eq_true, decide_eq_true_iff, decide_eq_true_iff]

theorem isLowSurrogate_iff {unit : Nat} :
    isLowSurrogate unit = true ↔ 0xDC00 ≤ unit ∧ unit < 0xE000 := by
  rw [isLowSurrogate, Bool.and_eq_true, decide_eq_true_iff, decide_eq_true_iff]

/-- No unit is the first and the second of a pair. -/
theorem isLowSurrogate_of_isHighSurrogate {unit : Nat} (h : isHighSurrogate unit = true) :
    isLowSurrogate unit = false := by
  rw [isHighSurrogate_iff] at h
  rw [← Bool.not_eq_true, isLowSurrogate_iff]
  omega

theorem isHighSurrogate_of_isLowSurrogate {unit : Nat} (h : isLowSurrogate unit = true) :
    isHighSurrogate unit = false := by
  rw [isLowSurrogate_iff] at h
  rw [← Bool.not_eq_true, isHighSurrogate_iff]
  omega

theorem isHighSurrogate_toNat (c : Char) : isHighSurrogate c.toNat = false := by
  rw [← Bool.not_eq_true, isHighSurrogate_iff]
  rcases toNat_lt_or_lt c with h | ⟨h, -⟩ <;> omega

theorem isLowSurrogate_toNat (c : Char) : isLowSurrogate c.toNat = false := by
  rw [← Bool.not_eq_true, isLowSurrogate_iff]
  rcases toNat_lt_or_lt c with h | ⟨h, -⟩ <;> omega

/-- A unit that is a whole character stands for it. -/
theorem unitChar_toNat (c : Char) (rest : List Char) :
    unitChar c.toNat rest = (c, unitEscapeLength, rest) := by
  rw [unitChar, isHighSurrogate_toNat, if_neg Bool.false_ne_true, charOfCode?_toNat,
    Option.getD_some]

theorem lt_of_isHighSurrogate {unit : Nat} (h : isHighSurrogate unit = true) : unit < 0x10000 := by
  rw [isHighSurrogate_iff] at h
  omega

theorem lt_of_isLowSurrogate {unit : Nat} (h : isLowSurrogate unit = true) : unit < 0x10000 := by
  rw [isLowSurrogate_iff] at h
  omega

theorem charOfCode?_of_isHighSurrogate {unit : Nat} (h : isHighSurrogate unit = true) :
    charOfCode? unit = none := by
  rw [isHighSurrogate_iff] at h
  rw [charOfCode?, dif_neg]
  rintro (hlow | ⟨hhigh, -⟩) <;> omega

/-- The code point of any pair of surrogates is that of a character. -/
theorem isValidChar_pairCode {high low : Nat} (hhigh : isHighSurrogate high = true)
    (hlow : isLowSurrogate low = true) : (pairCode high low).isValidChar := by
  rw [isHighSurrogate_iff] at hhigh
  rw [isLowSurrogate_iff] at hlow
  have hleast : 0xDFFF < pairCode high low := by
    unfold pairCode
    omega
  have hmost : pairCode high low < 0x110000 := by
    unfold pairCode
    omega
  exact .inr ⟨hleast, hmost⟩

/-- The two units of a character above U+FFFF are a pair of surrogates, and the code point of the
pair is that of the character. -/
theorem exists_pair_of_le {c : Char} (h : 0x10000 ≤ c.toNat) :
    ∃ high low, units c = [high, low] ∧ isHighSurrogate high = true ∧ isLowSurrogate low = true
      ∧ pairCode high low = c.toNat := by
  have hlt : c.toNat < 0x110000 := by
    rcases toNat_lt_or_lt c with h | ⟨-, h⟩ <;> omega
  obtain ⟨high, hhigh⟩ : ∃ n, n = 0xD800 + (c.toNat - 0x10000) / 0x400 := ⟨_, rfl⟩
  obtain ⟨low, hlow⟩ : ∃ n, n = 0xDC00 + (c.toNat - 0x10000) % 0x400 := ⟨_, rfl⟩
  refine ⟨high, low, ?_, ?_, ?_, ?_⟩
  · rw [units, if_neg (Nat.not_lt.mpr h), hhigh, hlow]
  · rw [isHighSurrogate_iff]
    omega
  · rw [isLowSurrogate_iff]
    omega
  · unfold pairCode
    omega

/-- Read as escapes, the two units of a character above U+FFFF stand for it together. -/
theorem unitChar_pair {c : Char} {high low : Nat} (hhigh : isHighSurrogate high = true)
    (hlow : isLowSurrogate low = true) (hcode : pairCode high low = c.toNat) (rest : List Char) :
    unitChar high (unitEscape low ++ rest) = (c, 2 * unitEscapeLength, rest) := by
  have hescape : lowEscape? (unitEscape low ++ rest) = some (low, rest) := by
    rw [unitEscape_eq, List.cons_append, List.cons_append, lowEscape?,
      hexUnit?_unitDigits (lt_of_isLowSurrogate hlow)]
    exact Option.filter_some_pos hlow
  rw [unitChar, if_pos hhigh, hescape]
  simp only [hcode, charOfCode?_toNat, Option.getD_some]

/-! ## One piece at a time -/

theorem unescape_nil (offset : Nat) : unescape offset [] = .ok [] := by
  rw [unescape.eq_def]

theorem unescape_cons_of_ne {c : Char} (hc : c ≠ '\\') (offset : Nat) (rest : List Char) :
    unescape offset (c :: rest) = (unescape (offset + c.utf8Size) rest).map (c :: ·) := by
  simp only [unescape.eq_def offset, if_neg hc]

theorem unescape_simple {e d : Char} (he : e ≠ 'u') (hd : simpleEscape? e = some d) (offset : Nat)
    (rest : List Char) :
    unescape offset ('\\' :: e :: rest) = (unescape (offset + 2) rest).map (d :: ·) := by
  simp only [unescape, if_true, if_neg he, hd]

theorem unescape_unit {digits after left : List Char} {unit taken : Nat} {d : Char}
    (hu : hexUnit? digits = some (unit, after)) (hd : unitChar unit after = (d, taken, left))
    (offset : Nat) :
    unescape offset ('\\' :: 'u' :: digits) = (unescape (offset + taken) left).map (d :: ·) := by
  rw [unescape, if_pos rfl]
  simp only [if_true]
  split
  · next h =>
    rw [hu] at h
    cases h
  · next unit' after' h =>
    rw [hu] at h
    cases h
    rw [hd]

/-- Text without a backslash stays as it is. -/
theorem unescape_of_notMem {cs : List Char} (h : '\\' ∉ cs) (offset : Nat) :
    unescape offset cs = .ok cs := by
  induction cs generalizing offset with
  | nil => exact unescape_nil offset
  | cons c cs ih =>
      rw [List.mem_cons, not_or] at h
      rw [unescape_cons_of_ne (Ne.symm h.1), ih h.2]
      rfl

/-- A character spelled by number resolves to itself. -/
theorem unescape_charEscape_append (c : Char) (offset : Nat) (rest : List Char) :
    unescape offset (charEscape c ++ rest)
      = (unescape (offset + (charEscape c).length) rest).map (c :: ·) := by
  rw [length_charEscape]
  by_cases h : c.toNat < 0x10000
  · have hunits : units c = [c.toNat] := if_pos h
    rw [charEscape, hunits, List.flatMap_singleton, unitEscape_eq, List.cons_append,
      List.cons_append, unescape_unit (hexUnit?_unitDigits h rest) (unitChar_toNat c rest)]
    rfl
  · obtain ⟨high, low, hunits, hhigh, hlow, hcode⟩ := exists_pair_of_le (Nat.not_lt.mp h)
    rw [charEscape, hunits, List.flatMap_cons, List.flatMap_singleton, List.append_assoc,
      unitEscape_eq high, List.cons_append, List.cons_append,
      unescape_unit (hexUnit?_unitDigits (lt_of_isHighSurrogate hhigh) _)
        (unitChar_pair hhigh hlow hcode rest)]
    rfl

end JsonAxes.Text

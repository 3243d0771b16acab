import JsonAxes.Proofs.Text.WellEscaped
import JsonAxes.Proofs.Token.Cutting

/-!
# How far literals reach

What a literal takes off a text, and what it leaves: a string literal leaves what shows how it ends
(`Token.exists_append_of_stringBody`), a number what does not go on with a digit
(`Token.exists_numeral_of_numberExtent`), a word whatever stands behind it.
-/

set_option autoImplicit false

namespace JsonAxes

namespace Token

/-! ## Escapes -/

theorem escapeExtent_of_hexUnit? {cs after : List Char} {unit : Nat}
    (h : Text.hexUnit? cs = some (unit, after)) : escapeExtent ('u' :: cs) = .whole 5 := by
  obtain ⟨a, b, c, d, rfl, ha, hb, hc, hd⟩ := Text.exists_digits_of_hexUnit? h
  simp [escapeExtent, ha, hb, hc, hd]

theorem escapeExtent_of_hexUnit?_eq_none {cs : List Char} (h : Text.hexUnit? cs = none) :
    ∃ n, escapeExtent ('u' :: cs) = .broken n := by
  have hdigits : ¬ ((cs.take 4).takeWhile Text.isHexDigit).length = 4 := by
    intro hfour
    have hle : (cs.take 4).length ≤ 4 := List.length_take_le 4 cs
    have htaken := List.takeWhile_prefix (l := cs.take 4) Text.isHexDigit
    have heq : (cs.take 4).takeWhile Text.isHexDigit = cs.take 4 :=
      htaken.eq_of_length (by have := htaken.length_le; omega)
    have hall : ∀ c ∈ cs.take 4, Text.isHexDigit c = true := by
      rw [← heq]
      exact List.all_eq_true.mp List.all_takeWhile
    rw [heq] at hfour
    obtain ⟨a, b, c, d, hcs⟩ := List.length_eq_four.mp hfour
    rw [hcs] at hall
    simp only [List.mem_cons, List.not_mem_nil, or_false, forall_eq_or_imp, forall_eq] at hall
    obtain ⟨ha, hb, hc, hd⟩ := hall
    rw [← List.take_append_drop 4 cs, hcs] at h
    simp [Text.hexUnit?, ha, hb, hc, hd] at h
  simp only [escapeExtent, if_true, if_neg hdigits]
  exact ⟨_, rfl⟩

/-- The two kinds of whole escapes. -/
theorem escapeExtent_eq_whole {cs : List Char} {n : Nat} (h : escapeExtent cs = .whole n) :
    (∃ e rest, cs = e :: rest ∧ isSimpleEscape e = true ∧ n = 1)
      ∨ ∃ rest unit after, cs = 'u' :: rest ∧ Text.hexUnit? rest = some (unit, after)
        ∧ n = 5 := by
  cases cs with
  | nil => cases h
  | cons e rest =>
      by_cases hu : e = 'u'
      · rw [hu] at h ⊢
        cases hunit : Text.hexUnit? rest with
        | none =>
            obtain ⟨m, hbroken⟩ := escapeExtent_of_hexUnit?_eq_none hunit
            rw [hbroken] at h
            cases h
        | some u =>
            rw [escapeExtent_of_hexUnit? hunit] at h
            cases h
            exact .inr ⟨rest, u.1, u.2, rfl, hunit, rfl⟩
      · simp only [escapeExtent, if_neg hu] at h
        split at h
        · next hsimple =>
          cases h
          exact .inl ⟨e, rest, rfl, hsimple, rfl⟩
        · cases h

/-- An escape by number, with digits of either case. -/
theorem isPiece_unit {a b c d : Char} (ha : Text.isHexDigit a = true)
    (hb : Text.isHexDigit b = true) (hc : Text.isHexDigit c = true)
    (hd : Text.isHexDigit d = true) : IsPiece ['\\', 'u', a, b, c, d] := by
  apply isPiece_escape
  intro rest
  have hunit : Text.hexUnit? (a :: b :: c :: d :: rest)
      = some (Text.hexNumber [a, b, c, d], rest) := by
    simp [Text.hexUnit?, ha, hb, hc, hd]
  exact escapeExtent_of_hexUnit? hunit

/-- A whole escape is a piece of the body. -/
theorem isPiece_of_escapeExtent {cs : List Char} {n : Nat} (h : escapeExtent cs = .whole n) :
    IsPiece ('\\' :: cs.take n) := by
  rcases escapeExtent_eq_whole h with ⟨e, rest, rfl, hsimple, rfl⟩
    | ⟨rest, unit, after, rfl, hunit, rfl⟩
  · exact isPiece_simpleEscape hsimple
  · obtain ⟨a, b, c, d, rfl, ha, hb, hc, hd⟩ := Text.exists_digits_of_hexUnit? hunit
    exact isPiece_unit ha hb hc hd

/-! ## String literals -/

/-- What stands behind the part of a string literal that was taken, by how the literal ends. -/
def StringEnd.Leaves : StringEnd → List Char → Prop
  | .closed rest, left => left = '"' :: rest
  | .unterminated, left => left = []
  | .unterminatedEscape, left => left = ['\\']
  | .malformedEscape escape, left => escape ≠ [] ∧ escape <+: left

theorem eq_nil_of_escapeExtent {cs : List Char} (h : escapeExtent cs = .missing) : cs = [] := by
  cases cs with
  | nil => rfl
  | cons c cs =>
      simp only [escapeExtent] at h
      split at h
      · split at h <;> cases h
      · split at h <;> cases h

/-- Nothing of a text is lost between the body of a string literal and its end. -/
theorem exists_append_of_stringBody {cs body : List Char} {ending : StringEnd}
    (h : stringBody cs = (body, ending)) : ∃ left, cs = body ++ left ∧ ending.Leaves left := by
  fun_induction stringBody cs generalizing body with
  | case1 =>
      cases h
      exact ⟨[], rfl, rfl⟩
  | case2 rest =>
      cases h
      exact ⟨'"' :: rest, rfl, rfl⟩
  | case3 rest hmissing =>
      cases h
      rw [eq_nil_of_escapeExtent hmissing]
      exact ⟨['\\'], rfl, rfl⟩
  | case4 rest n =>
      cases h
      have hfront : '\\' :: rest.take n <+: '\\' :: rest :=
        List.cons_prefix_cons.mpr ⟨rfl, List.take_prefix n rest⟩
      exact ⟨'\\' :: rest, rfl, List.cons_ne_nil _ _, hfront⟩
  | case5 rest n _ body' ending' hbody _ ih =>
      cases h
      obtain ⟨left, hleft, hends⟩ := ih hbody
      refine ⟨left, ?_, hends⟩
      calc '\\' :: rest = '\\' :: (rest.take n ++ rest.drop n) := by rw [List.take_append_drop]
        _ = ('\\' :: rest.take n ++ body') ++ left := by simp [hleft]
  | case6 c rest _ _ body' ending' hbody ih =>
      cases h
      obtain ⟨left, hleft, hends⟩ := ih hbody
      exact ⟨left, by rw [hleft, List.cons_append], hends⟩

/-! ## Exponents -/

section Exponents

variable {c : Char} {rest : List Char} (taken : List Char)

theorem exponentPart_of_ne (hc : ¬ (c = 'e' ∨ c = 'E')) (rest : List Char) :
    exponentPart taken (c :: rest) = .ok (taken, c :: rest) := if_neg hc

theorem exponentPart_sign {sign : Char} (hc : c = 'e' ∨ c = 'E') (hsign : sign = '+' ∨ sign = '-')
    (rest : List Char) :
    exponentPart taken (c :: sign :: rest) = someDigits (taken ++ [c, sign]) rest := by
  rcases hsign with rfl | rfl
  · exact if_pos hc
  · exact if_pos hc

theorem exponentPart_unsigned (hc : c = 'e' ∨ c = 'E') (hplus : ∀ more, rest ≠ '+' :: more)
    (hminus : ∀ more, rest ≠ '-' :: more) :
    exponentPart taken (c :: rest) = someDigits (taken ++ [c]) rest := by
  rw [exponentPart, if_pos hc]
  · exact hplus
  · exact hminus

end Exponents

/-! ## Numerals -/

theorem exists_digits_of_someDigits {taken cs taken' rest : List Char}
    (h : someDigits taken cs = .ok (taken', rest)) :
    ∃ ds : Digits, taken' = taken ++ ds.chars ∧ cs = ds.chars ++ rest ∧ EndsDigits rest := by
  unfold someDigits at h
  simp only at h
  split at h
  · cases h
  · next hne =>
    cases h
    rw [List.isEmpty_iff] at hne
    refine ⟨⟨_, hne, List.all_eq_true.mp List.all_takeWhile⟩, rfl,
      List.takeWhile_append_dropWhile.symm, ?_⟩
    intro c hc
    have hnot := List.head?_dropWhile_not Char.isDigit cs
    rw [hc] at hnot
    simpa using hnot

theorem exists_digits_of_integerPart {cs taken rest : List Char}
    (h : integerPart cs = .ok (taken, rest)) :
    ∃ (negative : Bool) (ds : Digits), taken = (if negative then ['-'] else []) ++ ds.chars
      ∧ cs = taken ++ rest ∧ EndsDigits rest := by
  unfold integerPart at h
  split at h
  · obtain ⟨ds, rfl, rfl, hrest⟩ := exists_digits_of_someDigits h
    exact ⟨true, ds, rfl, rfl, hrest⟩
  · obtain ⟨ds, rfl, rfl, hrest⟩ := exists_digits_of_someDigits h
    exact ⟨false, ds, rfl, rfl, hrest⟩

theorem exists_fraction_of_fractionPart {taken cs taken' rest : List Char}
    (h : fractionPart taken cs = .ok (taken', rest)) (hcs : EndsDigits cs) :
    ∃ ds? : Option Digits, taken' = taken ++ Numeral.fractionText ds?
      ∧ cs = Numeral.fractionText ds? ++ rest ∧ EndsDigits rest := by
  unfold fractionPart at h
  split at h
  · obtain ⟨ds, rfl, rfl, hrest⟩ := exists_digits_of_someDigits h
    exact ⟨some ds, by rw [List.append_assoc]; rfl, rfl, hrest⟩
  · cases h
    exact ⟨none, (List.append_nil _).symm, rfl, hcs⟩

theorem exists_exponent_of_exponentPart {taken cs taken' rest : List Char}
    (h : exponentPart taken cs = .ok (taken', rest)) (hcs : EndsDigits cs) :
    ∃ x? : Option Numeral.Exponent, taken' = taken ++ Numeral.exponentText x?
      ∧ cs = Numeral.exponentText x? ++ rest ∧ EndsDigits rest := by
  have hnone : ∀ {rest : List Char}, EndsDigits rest →
      ∃ x? : Option Numeral.Exponent, taken = taken ++ Numeral.exponentText x?
        ∧ rest = Numeral.exponentText x? ++ rest ∧ EndsDigits rest :=
    fun hrest => ⟨none, (List.append_nil _).symm, rfl, hrest⟩
  unfold exponentPart at h
  split at h
  · cases h
    exact hnone hcs
  · next c more =>
    split at h
    · next hletter =>
      split at h
      · obtain ⟨ds, rfl, rfl, hrest⟩ := exists_digits_of_someDigits h
        exact ⟨some ⟨c, hletter, some false, ds⟩, by rw [List.append_assoc]; rfl, rfl, hrest⟩
      · obtain ⟨ds, rfl, rfl, hrest⟩ := exists_digits_of_someDigits h
        exact ⟨some ⟨c, hletter, some true, ds⟩, by rw [List.append_assoc]; rfl, rfl, hrest⟩
      · obtain ⟨ds, rfl, rfl, hrest⟩ := exists_digits_of_someDigits h
        exact ⟨some ⟨c, hletter, none, ds⟩, by rw [List.append_assoc]; rfl, rfl, hrest⟩
    · cases h
      exact hnone hcs

/-- What is taken as a number is a numeral, and behind it stands no digit. -/
theorem exists_numeral_of_numberExtent {cs taken rest : List Char}
    (h : numberExtent cs = .ok (taken, rest)) :
    ∃ n : Numeral, taken = n.text ∧ cs = n.text ++ rest ∧ EndsDigits rest := by
  unfold numberExtent at h
  simp only [bind, Except.bind] at h
  split at h
  · cases h
  · next p hinteger =>
    split at h
    · cases h
    · next q hfraction =>
      obtain ⟨negative, whole, hp, rfl, hp'⟩ := exists_digits_of_integerPart hinteger
      obtain ⟨fraction?, hq, hsplit, hq'⟩ := exists_fraction_of_fractionPart hfraction hp'
      obtain ⟨x?, rfl, hsplit', hrest⟩ := exists_exponent_of_exponentPart h hq'
      refine ⟨⟨negative, whole, fraction?, x?⟩, ?_, ?_, hrest⟩
      · rw [hq, hp]
        simp only [Numeral.text, Numeral.body, List.append_assoc]
      · rw [hsplit, hsplit', hp]
        simp only [Numeral.text, Numeral.body, List.append_assoc]

/-! ## Words -/

theorem append_of_wordExtent {word cs rest : List Char} (h : wordExtent word cs = .ok rest) :
    cs = word ++ rest := by
  induction word generalizing cs with
  | nil =>
      cases h
      rfl
  | cons w word ih =>
      cases cs with
      | nil => cases h
      | cons c cs =>
          unfold wordExtent at h
          split at h
          · next hc =>
            split at h
            · next hrest =>
              cases h
              rw [hc, ih hrest, List.cons_append]
            · cases h
          · cases h

end Token

end JsonAxes

import JsonAxes.Proofs.Text.Escapable
import JsonAxes.Proofs.Token.Comment
import JsonAxes.Proofs.Token.Extent

/-!
# Pieces of the canonical form of a text

White space, comments, literals and words reach as far in the canonical form of a text as they do
in the text itself, if that can be escaped. The escapes that the form has in place of characters
neither open nor close anything: in a comment they hold no mark that ends it (`skipTrivia_form`),
and in a string literal each is a whole piece of the body (`closesAlike`). Results that may be
errors are compared by `Alike`.
-/

set_option autoImplicit false

namespace JsonAxes

/-- Whether two results are both errors, or both values that are related. -/
inductive Alike {α β δ ε : Type} (R : α → β → Prop) : Except δ α → Except ε β → Prop where
  | ok {a : α} {b : β} (h : R a b) : Alike R (.ok a) (.ok b)
  | error (d : δ) (e : ε) : Alike R (.error d) (.error e)

theorem Alike.bind {α β α' β' δ ε : Type} {R : α → β → Prop} {S : α' → β' → Prop}
    {x : Except δ α} {y : Except ε β} {f : α → Except δ α'} {g : β → Except ε β'}
    (h : Alike R x y) (hfg : ∀ a b, R a b → Alike S (f a) (g b)) :
    Alike S (x.bind f) (y.bind g) := by
  cases h with
  | ok h => exact hfg _ _ h
  | error d e => exact .error d e

namespace Token

open Canonical

/-! ## Comments -/

theorem mem_charEscape {c d : Char} (h : d ∈ Text.charEscape c) : d ∉ ['\n', '*', '/'] := by
  have hdigit : ∀ n < 16, Text.hexDigit n ∉ ['\n', '*', '/'] := by decide
  rcases Text.eq_of_mem_charEscape h with rfl | rfl | ⟨n, hn, rfl⟩
  · decide
  · decide
  · exact hdigit n hn

/-- A line ends in the form of a text where it ends in the text. -/
theorem line_form (cs : List Char) :
    (form cs).takeWhile (· != '\n') = form (cs.takeWhile (· != '\n'))
      ∧ (form cs).dropWhile (· != '\n') = form (cs.dropWhile (· != '\n')) := by
  apply takeWhile_form_of_escaped
  intro c hc
  constructor
  · rw [bne_iff_ne]
    rintro rfl
    cases hc
  · intro d hd
    rw [bne_iff_ne]
    rintro rfl
    exact mem_charEscape hd (by decide)

/-- The end of a block comment stands where it stood, and no other has come up in front of it. -/
theorem blockComment?_form (cs : List Char) :
    blockComment? (form cs) = (blockComment? cs).map fun p => (form p.1, form p.2) := by
  induction cs with
  | nil => rfl
  | cons c cs ih =>
      by_cases hc : isCanonical c = true
      · by_cases hends : c = '*' ∧ ∃ after, cs = '/' :: after
        · obtain ⟨rfl, after, rfl⟩ := hends
          rw [form_cons hc, form_cons (by decide)]
          rfl
        · have hne : ∀ after, c = '*' → cs ≠ '/' :: after := by
            rintro after rfl rfl
            exact hends ⟨rfl, after, rfl⟩
          have hne' : ∀ after, c = '*' → form cs ≠ '/' :: after := by
            intro after hstar hform
            obtain ⟨-, rest, rfl, -⟩ := exists_of_form_eq_cons (by decide) hform
            exact hne rest hstar rfl
          rw [form_cons hc, blockComment?_cons hne, blockComment?_cons hne', ih, Option.map_map,
            Option.map_map]
          congr 1
          funext p
          exact Prod.ext (form_cons hc p.1).symm rfl
      · rw [Bool.not_eq_true] at hc
        have hne : ∀ after, c = '*' → cs ≠ '/' :: after := by
          rintro after rfl
          cases hc
        have hstar : '*' ∉ Text.charEscape c := fun hmem => mem_charEscape hmem (by decide)
        rw [form_cons_of_not hc, blockComment?_append hstar, blockComment?_cons hne, ih,
          Option.map_map, Option.map_map]
        congr 1
        funext p
        exact Prod.ext (form_cons_of_not hc p.1).symm rfl

/-- What is skipped first in the form of a text is the form of what is skipped in the text. -/
def Gap.form : Gap → Gap
  | .empty => .empty
  | .piece skipped rest => .piece (Canonical.form skipped) (Canonical.form rest)
  | .unclosed => .unclosed

theorem line_form_eq (cs : List Char) : Gap.line (Canonical.form cs) = (Gap.line cs).form := by
  rw [Gap.line, Gap.line, (line_form cs).1, (line_form cs).2]
  rfl

/-- Behind a slash, what makes it the beginning of a comment stands in both texts or in neither. -/
theorem first_slash_form (cs : List Char) :
    Gap.first ('/' :: Canonical.form cs) = (Gap.first ('/' :: cs)).form := by
  have hcons : ∀ {d : Char} {more : List Char}, d ≠ '\\' → Canonical.form cs = d :: more →
      ∃ rest, cs = d :: rest ∧ Canonical.form rest = more := by
    intro d more hd hform
    exact (exists_of_form_eq_cons hd hform).2
  by_cases hslash : ∃ more, cs = '/' :: more
  · obtain ⟨more, rfl⟩ := hslash
    rw [form_cons (by decide), first_slashes, first_slashes, ← line_form_eq, form_cons (by decide),
      form_cons (by decide)]
  · by_cases hstar : ∃ body, cs = '*' :: body
    · obtain ⟨body, rfl⟩ := hstar
      rw [form_cons (by decide), first_opening, first_opening, blockComment?_form]
      cases blockComment? body with
      | none => rfl
      | some p =>
          obtain ⟨inside, after⟩ := p
          simp only [Option.map_some, Gap.form, form_append]
          rw [form_cons (by decide), form_cons (by decide)]
          rfl
    · rw [first_slash (fun more h => hslash ⟨more, h⟩) (fun body h => hstar ⟨body, h⟩),
        first_slash]
      · rfl
      · intro more hform
        obtain ⟨rest, rfl, -⟩ := hcons (by decide) hform
        exact hslash ⟨rest, rfl⟩
      · intro body hform
        obtain ⟨rest, rfl, -⟩ := hcons (by decide) hform
        exact hstar ⟨rest, rfl⟩

/-- What is not canonical begins nothing that is skipped. -/
theorem isSolid_of_not_isCanonical {c : Char} (hc : isCanonical c = false) : IsSolid c := by
  have hne : ∀ d, isCanonical d = true → c ≠ d := by
    rintro d hd rfl
    rw [hd] at hc
    cases hc
  refine ⟨?_, hne '#' rfl, hne '/' rfl⟩
  rw [← Bool.not_eq_true]
  intro hblank
  simp only [isBlank, Bool.or_eq_true, beq_iff_eq] at hblank
  rcases hblank with (((((rfl | rfl) | rfl) | rfl) | rfl) | rfl) | rfl <;> cases hc

theorem first_form (cs : List Char) : Gap.first (form cs) = (Gap.first cs).form := by
  cases cs with
  | nil => rfl
  | cons c cs =>
      by_cases hc : isCanonical c = true
      · rw [form_cons hc]
        by_cases hblank : isBlank c = true
        · rw [first_of_isBlank hblank, first_of_isBlank hblank, Gap.form, form_cons hc]
          rfl
        · by_cases hhash : c = '#'
          · rw [hhash, first_hash, first_hash, ← line_form_eq, form_cons (by decide)]
          · by_cases hslash : c = '/'
            · rw [hslash]
              exact first_slash_form cs
            · have hsolid : IsSolid c := ⟨Bool.eq_false_iff.mpr hblank, hhash, hslash⟩
              rw [first_of_isSolid hsolid, first_of_isSolid hsolid]
              rfl
      · rw [Bool.not_eq_true] at hc
        obtain ⟨ds, hform⟩ := exists_form_eq hc cs
        have hsolid : IsSolid '\\' := ⟨rfl, by decide, by decide⟩
        rw [hform, first_of_isSolid hsolid, first_of_isSolid (isSolid_of_not_isCanonical hc)]
        rfl

/-- What is skipped of the form of a text is the form of what is skipped of the text. -/
theorem skipTrivia_form (offset offset' : Nat) (cs : List Char) :
    Alike (fun p q => q.2 = form p.2) (skipTrivia offset cs) (skipTrivia offset' (form cs)) := by
  fun_induction skipTrivia offset cs generalizing offset' with
  | case1 offset cs h =>
      have hform : Gap.first (form cs) = .empty := by rw [first_form, h, Gap.form]
      rw [skipTrivia_of_empty hform]
      exact .ok rfl
  | case2 offset cs skipped rest h _ ih =>
      have hform : Gap.first (form cs) = .piece (form skipped) (form rest) := by
        rw [first_form, h, Gap.form]
      rw [skipTrivia_of_piece hform]
      exact ih _
  | case3 offset cs h =>
      have hform : Gap.first (form cs) = .unclosed := by rw [first_form, h, Gap.form]
      rw [skipTrivia_of_unclosed hform]
      exact .error _ _

/-! ## String literals -/

/-- The body of a string literal and what stands behind its closing quote, if there is one. -/
def closed? : List Char × StringEnd → Option (List Char × List Char)
  | (body, .closed after) => some (body, after)
  | _ => none

theorem closed?_append {piece : List Char} (h : IsPiece piece) (rest : List Char) :
    closed? (stringBody (piece ++ rest))
      = (closed? (stringBody rest)).map fun p => (piece ++ p.1, p.2) := by
  rw [h]
  cases stringBody rest with
  | mk body ending => cases ending <;> rfl

theorem closed?_of_broken {cs : List Char} (h : ∀ n, escapeExtent cs ≠ .whole n) :
    closed? (stringBody ('\\' :: cs)) = none := by
  rw [stringBody, if_neg (by decide), if_pos rfl]
  split
  · rfl
  · rfl
  · next n hwhole => exact absurd hwhole (h n)

theorem isPiece_charEscape (c : Char) : IsPiece (Text.charEscape c) :=
  isPiece_flatMap fun unit _ => isPiece_unitEscape unit

theorem isCanonical_of_isSimpleEscape {c : Char} (h : isSimpleEscape c = true) :
    isCanonical c = true := by
  simp only [isSimpleEscape, Bool.or_eq_true, beq_iff_eq] at h
  rcases h with ((((((rfl | rfl) | rfl) | rfl) | rfl) | rfl) | rfl) | rfl <;> decide

/-- A whole escape is canonical, and behind it no escape is begun. -/
theorem form_escape {cs : List Char} {n : Nat} (h : escapeExtent cs = .whole n)
    (hcs : Escapable false ('\\' :: cs)) :
    form ('\\' :: cs.take n) = '\\' :: cs.take n ∧ Escapable false (cs.drop n) := by
  rcases escapeExtent_eq_whole h with ⟨e, rest, rfl, hsimple, rfl⟩
    | ⟨rest, unit, after, rfl, hunit, rfl⟩
  · refine ⟨?_, hcs.escape.2⟩
    apply form_of_all
    simp [isCanonical_of_isSimpleEscape hsimple]
    decide
  · have hafter := hcs.hexUnit hunit
    obtain ⟨a, b, c, d, rfl, ha, hb, hc, hd⟩ := Text.exists_digits_of_hexUnit? hunit
    refine ⟨?_, hafter⟩
    apply form_of_all
    simp [(isCanonical_of_isHexDigit ha).1, (isCanonical_of_isHexDigit hb).1,
      (isCanonical_of_isHexDigit hc).1, (isCanonical_of_isHexDigit hd).1]
    decide

theorem exists_whole_of_form {cs : List Char} {n : Nat} (hcs : Escapable false ('\\' :: cs))
    (h : escapeExtent (form cs) = .whole n) : ∃ m, escapeExtent cs = .whole m := by
  cases cs with
  | nil => cases h
  | cons e cs =>
      rw [form_cons hcs.escape.1] at h
      rcases escapeExtent_eq_whole h with ⟨_, _, heq, hsimple, -⟩ | ⟨_, unit, after, heq, hunit, -⟩
      · cases heq
        exact ⟨1, (if_neg (ne_of_isSimpleEscape hsimple)).trans (if_pos hsimple)⟩
      · cases heq
        rw [hexUnit?_form] at hunit
        obtain ⟨u, hu, -⟩ := Option.map_eq_some_iff.mp hunit
        exact ⟨5, escapeExtent_of_hexUnit? hu⟩

/-- Whether a string literal is closed in the form of a text where it is closed in the text. -/
def ClosesAlike (cs : List Char) : Prop :=
  closed? (stringBody (form cs)) = (closed? (stringBody cs)).map fun p => (form p.1, form p.2)

theorem ClosesAlike.append {piece rest : List Char} (hpiece : IsPiece piece)
    (hform : IsPiece (form piece)) (h : ClosesAlike rest) : ClosesAlike (piece ++ rest) := by
  unfold ClosesAlike at h ⊢
  rw [form_append, closed?_append hform, closed?_append hpiece, h, Option.map_map, Option.map_map]
  congr 1
  funext p
  exact Prod.ext (form_append piece p.1).symm rfl

theorem closesAlike_of_broken {cs : List Char} (hcs : Escapable false ('\\' :: cs))
    (h : ∀ n, escapeExtent cs ≠ .whole n) : ClosesAlike ('\\' :: cs) := by
  unfold ClosesAlike
  rw [form_cons (by decide), closed?_of_broken h, closed?_of_broken]
  · rfl
  · intro n hwhole
    obtain ⟨m, hm⟩ := exists_whole_of_form hcs hwhole
    exact h m hm

/-- A string literal is closed where it was closed, by the same quote. -/
theorem closesAlike {cs : List Char} (h : Escapable false cs) : ClosesAlike cs := by
  induction cs using stringBody.induct with
  | case1 => rw [ClosesAlike, form_nil, stringBody]; rfl
  | case2 rest =>
      rw [ClosesAlike, form_cons (by decide), stringBody, if_pos rfl, stringBody, if_pos rfl]
      rfl
  | case3 rest hmissing =>
      apply closesAlike_of_broken h
      rw [hmissing]
      rintro n ⟨⟩
  | case4 rest n hextent =>
      apply closesAlike_of_broken h
      rw [hextent]
      rintro m ⟨⟩
  | case5 rest n hextent _ _ _ _ ih =>
      obtain ⟨hform, hrest⟩ := form_escape hextent h
      have hpiece := isPiece_of_escapeExtent hextent
      have happend := ClosesAlike.append hpiece (by rwa [hform]) (ih hrest)
      rwa [List.cons_append, List.take_append_drop] at happend
  | case6 c rest hquote hslash _ _ _ ih =>
      apply ClosesAlike.append (isPiece_of_ne hquote hslash) ?_ (ih (h.tail hslash))
      by_cases hc : isCanonical c = true
      · rw [form_cons hc]
        exact isPiece_of_ne hquote hslash
      · rw [form_cons_of_not (Bool.eq_false_iff.mpr hc), form_nil, List.append_nil]
        exact isPiece_charEscape c

/-! ## Numbers and words -/

/-- Whether an extent of the form of a text is one of the text: it takes the same and leaves the
form of the rest. -/
def SameExtent (p q : List Char × List Char) : Prop := q = (p.1, form p.2)

theorem someDigits_form (taken cs : List Char) :
    Alike SameExtent (someDigits taken cs) (someDigits taken (form cs)) := by
  obtain ⟨htake, hdrop⟩ := takeWhile_form (fun _ h => (isCanonical_of_isDigit h).1) rfl cs
  simp only [someDigits, htake, hdrop]
  split
  · exact .error _ _
  · exact .ok rfl

theorem integerPart_form (cs : List Char) :
    Alike SameExtent (integerPart cs) (integerPart (form cs)) := by
  by_cases hminus : ∃ rest, cs = '-' :: rest
  · obtain ⟨rest, rfl⟩ := hminus
    rw [form_cons (by decide)]
    exact someDigits_form ['-'] rest
  · rw [integerPart, integerPart]
    · exact someDigits_form [] cs
    · intro rest hform
      obtain ⟨-, rest', rfl, -⟩ := exists_of_form_eq_cons (by decide) hform
      exact hminus ⟨rest', rfl⟩
    · intro rest heq
      exact hminus ⟨rest, heq⟩

theorem fractionPart_form (taken cs : List Char) :
    Alike SameExtent (fractionPart taken cs) (fractionPart taken (form cs)) := by
  by_cases hpoint : ∃ rest, cs = '.' :: rest
  · obtain ⟨rest, rfl⟩ := hpoint
    rw [form_cons (by decide)]
    exact someDigits_form (taken ++ ['.']) rest
  · rw [fractionPart, fractionPart]
    · exact .ok rfl
    · intro rest hform
      obtain ⟨-, rest', rfl, -⟩ := exists_of_form_eq_cons (by decide) hform
      exact hpoint ⟨rest', rfl⟩
    · intro rest heq
      exact hpoint ⟨rest, heq⟩

theorem exponentPart_form (taken cs : List Char) :
    Alike SameExtent (exponentPart taken cs) (exponentPart taken (form cs)) := by
  cases cs with
  | nil => exact .ok rfl
  | cons c cs =>
      by_cases hletter : c = 'e' ∨ c = 'E'
      · have hc : isCanonical c = true := by rcases hletter with rfl | rfl <;> decide
        have hnone : ∀ {d : Char}, d ≠ '\\' → (∀ rest, cs ≠ d :: rest) →
            ∀ rest, form cs ≠ d :: rest := by
          intro d hd hne rest hform
          obtain ⟨-, rest', hcs, -⟩ := exists_of_form_eq_cons hd hform
          exact hne rest' hcs
        rw [form_cons hc]
        by_cases hsign : ∃ sign rest, (sign = '+' ∨ sign = '-') ∧ cs = sign :: rest
        · obtain ⟨sign, rest, hsign, rfl⟩ := hsign
          have hcanonical : isCanonical sign = true := by rcases hsign with rfl | rfl <;> decide
          rw [form_cons hcanonical, exponentPart_sign taken hletter hsign,
            exponentPart_sign taken hletter hsign]
          exact someDigits_form _ rest
        · have hplus : ∀ rest, cs ≠ '+' :: rest := fun rest h => hsign ⟨'+', rest, .inl rfl, h⟩
          have hminus : ∀ rest, cs ≠ '-' :: rest := fun rest h => hsign ⟨'-', rest, .inr rfl, h⟩
          rw [exponentPart_unsigned taken hletter hplus hminus,
            exponentPart_unsigned taken hletter (hnone (by decide) hplus)
              (hnone (by decide) hminus)]
          exact someDigits_form _ cs
      · rw [exponentPart_of_ne taken hletter]
        by_cases hc : isCanonical c = true
        · rw [form_cons hc, exponentPart_of_ne taken hletter]
          refine .ok ?_
          rw [SameExtent, form_cons hc]
        · obtain ⟨ds, hform⟩ := exists_form_eq (Bool.eq_false_iff.mpr hc) cs
          rw [hform, exponentPart_of_ne taken (by decide)]
          refine .ok ?_
          rw [SameExtent, hform]

theorem numberExtent_form (cs : List Char) :
    Alike SameExtent (numberExtent cs) (numberExtent (form cs)) := by
  refine (integerPart_form cs).bind ?_
  rintro ⟨taken, rest⟩ _ rfl
  refine (fractionPart_form taken rest).bind ?_
  rintro ⟨taken, rest⟩ _ rfl
  exact exponentPart_form taken rest

theorem wordExtent_cons (w : Char) (word rest : List Char) :
    wordExtent (w :: word) (w :: rest)
      = match wordExtent word rest with
        | .ok rest => .ok rest
        | .error taken => .error (w :: taken) := if_pos rfl

theorem exists_wordExtent_eq_error {w : Char} {cs : List Char} (h : ∀ rest, cs ≠ w :: rest)
    (word : List Char) : ∃ e, wordExtent (w :: word) cs = .error e := by
  cases cs with
  | nil => exact ⟨_, rfl⟩
  | cons c cs =>
      have hc : c ≠ w := by
        rintro rfl
        exact h cs rfl
      exact ⟨_, if_neg hc⟩

theorem wordExtent_form {word : List Char} (hword : ∀ c ∈ word, isCanonical c = true ∧ c ≠ '\\')
    (cs : List Char) :
    Alike (fun rest rest' => rest' = form rest) (wordExtent word cs)
      (wordExtent word (form cs)) := by
  induction word generalizing cs with
  | nil => exact .ok rfl
  | cons w word ih =>
      obtain ⟨hw, hslash⟩ := hword w List.mem_cons_self
      by_cases hfirst : ∃ rest, cs = w :: rest
      · obtain ⟨rest, rfl⟩ := hfirst
        have hrest := ih (fun c hc => hword c (List.mem_cons_of_mem w hc)) rest
        rw [form_cons hw, wordExtent_cons, wordExtent_cons]
        generalize wordExtent word rest = x at hrest ⊢
        generalize wordExtent word (form rest) = y at hrest ⊢
        cases hrest with
        | ok h => exact .ok h
        | error d e => exact .error _ _
      · have hne : ∀ rest, cs ≠ w :: rest := fun rest h => hfirst ⟨rest, h⟩
        have hne' : ∀ rest, form cs ≠ w :: rest := by
          intro rest hform
          obtain ⟨-, rest', hcs, -⟩ := exists_of_form_eq_cons hslash hform
          exact hne rest' hcs
        obtain ⟨e, he⟩ := exists_wordExtent_eq_error hne word
        obtain ⟨e', he'⟩ := exists_wordExtent_eq_error hne' word
        rw [he, he']
        exact .error e e'

end Token

end JsonAxes

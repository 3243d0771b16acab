import JsonAxes.Proofs.Number.Numeral
import JsonAxes.Proofs.Text.Unescape
import JsonAxes.Token.Lexer

/-!
# Cutting tokens off a text

A text is cut into tokens piece by piece: `CutsInto cs P rest` says that from the front of `cs`,
wherever that stands, the lexer takes tokens of which `P` holds and is left with `rest`. There is
one lemma for each kind of piece: text that is skipped, punctuation, words, numerals, string
literals. Only a numeral depends on what stands behind it, which must not read as a part of it
(`EndsNumeral`).
-/

set_option autoImplicit false

namespace JsonAxes

namespace Token

/-! ## Skipped text -/

theorem skipTrivia_of_empty {cs : List Char} (h : Gap.first cs = .empty) (offset : Nat) :
    skipTrivia offset cs = .ok (offset, cs) := by
  rw [skipTrivia]
  split
  · rfl
  · next h' =>
    rw [h] at h'
    cases h'
  · next h' =>
    rw [h] at h'
    cases h'

theorem skipTrivia_of_piece {cs skipped rest : List Char} (h : Gap.first cs = .piece skipped rest)
    (offset : Nat) :
    skipTrivia offset cs = skipTrivia (offset + Text.utf8Length skipped) rest := by
  rw [skipTrivia]
  split
  · next h' =>
    rw [h] at h'
    cases h'
  · next h' =>
    rw [h] at h'
    cases h'
    rfl
  · next h' =>
    rw [h] at h'
    cases h'

/-- Whether the lexer skips a text wherever it stands. -/
def IsSkipped (skipped : List Char) : Prop :=
  ∀ offset rest, skipTrivia offset (skipped ++ rest)
    = skipTrivia (offset + Text.utf8Length skipped) rest

theorem isSkipped_nil : IsSkipped [] := fun _ _ => rfl

theorem IsSkipped.append {as bs : List Char} (ha : IsSkipped as) (hb : IsSkipped bs) :
    IsSkipped (as ++ bs) := by
  intro offset rest
  rw [List.append_assoc, ha, hb, Text.utf8Length_append, Nat.add_assoc]

theorem isSkipped_blank {c : Char} (hc : isBlank c = true) : IsSkipped [c] := by
  intro offset rest
  have hfirst : Gap.first (c :: rest) = .piece [c] rest := if_pos hc
  exact skipTrivia_of_piece hfirst offset

/-- White space is skipped. -/
theorem isSkipped_of_blank {cs : List Char} (h : ∀ c ∈ cs, isBlank c = true) : IsSkipped cs := by
  induction cs with
  | nil => exact isSkipped_nil
  | cons c cs ih =>
      have hc := isSkipped_blank (h c List.mem_cons_self)
      exact hc.append (ih fun d hd => h d (List.mem_cons_of_mem c hd))

/-- Whether a character is neither white space nor the beginning of a comment. -/
def IsSolid (c : Char) : Prop := isBlank c = false ∧ c ≠ '#' ∧ c ≠ '/'

theorem skipTrivia_of_isSolid {c : Char} (hc : IsSolid c) (offset : Nat) (rest : List Char) :
    skipTrivia offset (c :: rest) = .ok (offset, c :: rest) := by
  obtain ⟨hblank, hhash, hslash⟩ := hc
  have hblank' : ¬ isBlank c = true := Bool.eq_false_iff.mp hblank
  have hfirst : Gap.first (c :: rest) = .empty :=
    (if_neg hblank').trans ((if_neg hhash).trans (if_neg hslash))
  exact skipTrivia_of_empty hfirst offset

theorem skipTrivia_nil (offset : Nat) : skipTrivia offset [] = .ok (offset, []) :=
  skipTrivia_of_empty rfl offset

/-! ## Bodies of string literals -/

/-- Whether a text is a whole piece of the body of a string literal, whatever stands behind it. -/
def IsPiece (piece : List Char) : Prop :=
  ∀ rest, stringBody (piece ++ rest) = (piece ++ (stringBody rest).1, (stringBody rest).2)

theorem isPiece_nil : IsPiece [] := fun _ => rfl

theorem IsPiece.append {as bs : List Char} (ha : IsPiece as) (hb : IsPiece bs) :
    IsPiece (as ++ bs) := by
  intro rest
  rw [List.append_assoc, ha, hb, List.append_assoc]

theorem isPiece_flatMap {α : Type} {f : α → List Char} {xs : List α}
    (h : ∀ x ∈ xs, IsPiece (f x)) : IsPiece (xs.flatMap f) := by
  induction xs with
  | nil => exact isPiece_nil
  | cons x xs ih =>
      rw [List.flatMap_cons]
      exact (h x List.mem_cons_self).append (ih fun y hy => h y (List.mem_cons_of_mem x hy))

/-- A character that stands for itself. -/
theorem isPiece_of_ne {c : Char} (hquote : c ≠ '"') (hslash : c ≠ '\\') : IsPiece [c] := by
  intro rest
  rw [List.singleton_append, stringBody, if_neg hquote, if_neg hslash]
  rfl

/-- An escape that reaches as far as the text. -/
theorem isPiece_escape {escape : List Char}
    (h : ∀ rest, escapeExtent (escape ++ rest) = .whole escape.length) :
    IsPiece ('\\' :: escape) := by
  intro rest
  rw [List.cons_append, stringBody, if_neg (by decide), if_pos rfl, h rest]
  simp only [List.take_left, List.drop_left, List.cons_append]

theorem ne_of_isSimpleEscape {c : Char} (h : isSimpleEscape c = true) : c ≠ 'u' := by
  rintro rfl
  exact absurd h (by decide)

theorem isPiece_simpleEscape {c : Char} (h : isSimpleEscape c = true) : IsPiece ['\\', c] := by
  refine isPiece_escape fun rest => ?_
  simp only [List.singleton_append, escapeExtent, if_neg (ne_of_isSimpleEscape h), h, if_true,
    List.length_singleton]

theorem isPiece_unitEscape (unit : Nat) : IsPiece (Text.unitEscape unit) := by
  refine isPiece_escape fun rest => ?_
  have hdigit : ∀ n : Nat, Text.isHexDigit (Text.hexDigit (n % 16)) = true := fun n =>
    Text.isHexDigit_hexDigit (Nat.mod_lt n (by decide))
  simp [escapeExtent, hdigit]

/-- A body made of pieces reaches up to the quote behind it. -/
theorem IsPiece.stringBody_append_quote {body : List Char} (h : IsPiece body) (rest : List Char) :
    stringBody (body ++ '"' :: rest) = (body, .closed rest) := by
  rw [h, stringBody, if_pos rfl, List.append_nil]

/-! ## Words and numerals -/

theorem wordExtent_append (word rest : List Char) : wordExtent word (word ++ rest) = .ok rest := by
  induction word with
  | nil => rfl
  | cons c word ih =>
      rw [List.cons_append, wordExtent, if_pos rfl, ih]

/-- Whether a text does not go on with a part of a numeral. -/
def EndsNumeral (rest : List Char) : Prop :=
  ∀ c ∈ rest.head?, c.isDigit = false ∧ c ≠ '.' ∧ c ≠ 'e' ∧ c ≠ 'E'

theorem endsNumeral_nil : EndsNumeral [] := nofun

theorem endsNumeral_cons {c : Char} (h : c.isDigit = false ∧ c ≠ '.' ∧ c ≠ 'e' ∧ c ≠ 'E')
    (rest : List Char) : EndsNumeral (c :: rest) := by
  intro d hd
  cases hd
  exact h

section Numerals

variable {rest : List Char}

theorem EndsNumeral.append {as bs : List Char} (ha : EndsNumeral as) (hb : EndsNumeral bs) :
    EndsNumeral (as ++ bs) := by
  cases as with
  | nil => exact hb
  | cons c as =>
      intro d hd
      exact ha d hd

theorem EndsNumeral.endsDigits (h : EndsNumeral rest) : EndsDigits rest := fun c hc => (h c hc).1

theorem someDigits_append (taken : List Char) (ds : Digits) (h : EndsDigits rest) :
    someDigits taken (ds.chars ++ rest) = .ok (taken ++ ds.chars, rest) := by
  have hne : ds.chars.isEmpty = false := List.isEmpty_eq_false_iff.mpr ds.ne_nil
  simp only [someDigits, ds.takeWhile_append h, ds.dropWhile_append h, hne, Bool.false_eq_true,
    if_false]

theorem integerPart_append (negative : Bool) (ds : Digits) (h : EndsDigits rest) :
    integerPart ((if negative then ['-'] else []) ++ (ds.chars ++ rest))
      = .ok ((if negative then ['-'] else []) ++ ds.chars, rest) := by
  cases negative with
  | true => exact someDigits_append ['-'] ds h
  | false =>
      obtain ⟨c, cs, hcs, hc⟩ := ds.exists_cons
      have hdigits := someDigits_append [] ds h
      simp only [Bool.false_eq_true, if_false, List.nil_append] at hdigits ⊢
      rw [hcs, List.cons_append] at hdigits ⊢
      rw [integerPart]
      · exact hdigits
      · rintro r ⟨⟩
        exact absurd hc (by decide)

theorem fractionPart_append (taken : List Char) (ds? : Option Digits) (h : EndsDigits rest)
    (hpoint : ∀ r, rest ≠ '.' :: r) :
    fractionPart taken (Numeral.fractionText ds? ++ rest)
      = .ok (taken ++ Numeral.fractionText ds?, rest) := by
  cases ds? with
  | none =>
      simp only [Numeral.fractionText, List.nil_append, List.append_nil]
      rw [fractionPart]
      exact hpoint
  | some ds =>
      have hdigits := someDigits_append (taken ++ ['.']) ds h
      rw [List.append_assoc] at hdigits
      exact hdigits

theorem exponentPart_append (taken : List Char) (x? : Option Numeral.Exponent)
    (h : EndsNumeral rest) :
    exponentPart taken (Numeral.exponentText x? ++ rest)
      = .ok (taken ++ Numeral.exponentText x?, rest) := by
  cases x? with
  | none =>
      simp only [Numeral.exponentText, List.nil_append, List.append_nil]
      cases rest with
      | nil => rfl
      | cons c rest =>
          obtain ⟨-, -, he, hE⟩ := h c rfl
          exact if_neg (not_or.mpr ⟨he, hE⟩)
  | some x =>
      obtain ⟨letter, hletter, sign?, ds⟩ := x
      have hdigits : ∀ taken, someDigits taken (ds.chars ++ rest) = .ok (taken ++ ds.chars, rest) :=
        fun taken => someDigits_append taken ds h.endsDigits
      simp only [Numeral.exponentText, List.cons_append, List.append_assoc, exponentPart,
        if_pos hletter]
      rcases sign? with _ | _ | _
      · -- without a sign the first digit stands where a sign is looked for
        obtain ⟨c, cs, hcs, hc⟩ := ds.exists_cons
        simp only [Numeral.signText, List.nil_append]
        rw [hcs, List.cons_append] at hdigits ⊢
        split
        · next h =>
          cases h
          exact absurd hc (by decide)
        · next h =>
          cases h
          exact absurd hc (by decide)
        · rw [hdigits, List.append_assoc]
          rfl
      · simp only [Numeral.signText, List.cons_append, List.nil_append, hdigits, List.append_assoc]
      · simp only [Numeral.signText, List.cons_append, List.nil_append, hdigits, List.append_assoc]

theorem endsDigits_exponentText_append (x? : Option Numeral.Exponent) (h : EndsNumeral rest) :
    EndsDigits (Numeral.exponentText x? ++ rest)
      ∧ ∀ r, Numeral.exponentText x? ++ rest ≠ '.' :: r := by
  cases x? with
  | none =>
      refine ⟨h.endsDigits, ?_⟩
      rintro r heq
      have hhead : rest.head? = some '.' := by rw [show rest = '.' :: r from heq]; rfl
      exact (h '.' hhead).2.1 rfl
  | some x =>
      rcases x.isLetter with hx | hx
      · exact ⟨endsDigits_cons (by rw [hx]; rfl) _, fun r heq => by
          exact absurd (hx.symm.trans (List.cons.inj heq).1) (by decide)⟩
      · exact ⟨endsDigits_cons (by rw [hx]; rfl) _, fun r heq => by
          exact absurd (hx.symm.trans (List.cons.inj heq).1) (by decide)⟩

/-- A numeral is taken whole, and nothing else. -/
theorem numberExtent_append (n : Numeral) (h : EndsNumeral rest) :
    numberExtent (n.text ++ rest) = .ok (n.text, rest) := by
  obtain ⟨negative, whole, fraction?, x?⟩ := n
  obtain ⟨hdigits, hpoint⟩ := endsDigits_exponentText_append x? h
  have hwhole := Numeral.endsDigits_fractionText fraction? hdigits
  have hsplit : Numeral.text ⟨negative, whole, fraction?, x?⟩ ++ rest
      = (if negative then ['-'] else []) ++ (whole.chars
        ++ (Numeral.fractionText fraction? ++ (Numeral.exponentText x? ++ rest))) := by
    simp only [Numeral.text, Numeral.body, List.append_assoc]
  rw [hsplit, numberExtent, integerPart_append negative whole hwhole]
  simp only [bind, Except.bind]
  rw [fractionPart_append _ fraction? hdigits hpoint]
  simp only [exponentPart_append _ x? h, Numeral.text, Numeral.body, List.append_assoc]

end Numerals

end Token

/-! ## Runs of the lexer -/

namespace Lexer

open Token

/-- The lexer yields some tokens one after another and becomes another lexer. -/
inductive Cuts : Lexer → List Token → Lexer → Prop where
  | nil (l : Lexer) : Cuts l [] l
  | cons {l l' l'' : Lexer} {t : Token} {ts : List Token} (h : l.next = (some (.ok t), l'))
      (hts : Cuts l' ts l'') : Cuts l (t :: ts) l''

theorem Cuts.append {l l' l'' : Lexer} {ts us : List Token} (h : Cuts l ts l')
    (h' : Cuts l' us l'') : Cuts l (ts ++ us) l'' := by
  induction h with
  | nil => exact h'
  | cons hnext _ ih => exact .cons hnext (ih h')

theorem drain_of_none {l l' : Lexer} (h : l.next = (none, l')) : l.drain = ⟨[], none, l'⟩ := by
  rw [drain]
  split
  · next h' =>
    rw [h] at h'
    cases h'
    rfl
  · next h' =>
    rw [h] at h'
    cases h'
  · next h' =>
    rw [h] at h'
    cases h'

theorem drain_of_ok {l l' : Lexer} {t : Token} (h : l.next = (some (.ok t), l')) :
    l.drain = ⟨t :: l'.drain.tokens, l'.drain.error?, l'.drain.final⟩ := by
  rw [drain]
  split
  · next h' =>
    rw [h] at h'
    cases h'
  · next h' =>
    rw [h] at h'
    cases h'
  · next h' =>
    rw [h] at h'
    cases h'
    rfl

/-- A lexer that is run to its end yields what it yields on the way. -/
theorem drain_of_cuts {l l' : Lexer} {ts : List Token} (h : Cuts l ts l') :
    l.drain = ⟨ts ++ l'.drain.tokens, l'.drain.error?, l'.drain.final⟩ := by
  induction h with
  | nil => rfl
  | cons hnext _ ih =>
      rw [drain_of_ok hnext, ih]
      rfl

theorem drain_of_isSkipped {offset : Nat} {cs : List Char} (h : IsSkipped cs) :
    drain ⟨offset, cs⟩ = ⟨[], none, ⟨offset + Text.utf8Length cs, []⟩⟩ := by
  have hskip : skipTrivia offset cs = .ok (offset + Text.utf8Length cs, []) := by
    have h' := h offset []
    rwa [List.append_nil, skipTrivia_nil] at h'
  apply drain_of_none
  simp only [next, hskip]

theorem next_of_tokenAt {offset : Nat} {c : Char} {rest : List Char} {t : Token} {l : Lexer}
    (hc : IsSolid c) (h : tokenAt offset c rest = .ok (t, l)) :
    next ⟨offset, c :: rest⟩ = (some (.ok t), l) := by
  simp only [next, skipTrivia_of_isSolid hc, h]

/-- Text that is skipped does not change what comes next. -/
theorem next_of_isSkipped {offset : Nat} {skipped cs : List Char} {t : Token} {l : Lexer}
    (hs : IsSkipped skipped)
    (h : next ⟨offset + Text.utf8Length skipped, cs⟩ = (some (.ok t), l)) :
    next ⟨offset, skipped ++ cs⟩ = (some (.ok t), l) := by
  simp only [next, hs offset cs] at h ⊢
  split at h
  · cases h
  · cases h
  · exact h

end Lexer

/-! ## Pieces of text -/

namespace Token

open Lexer

/-- From the front of a text, wherever it stands, the lexer takes tokens of which something holds
and is left with the rest. -/
def CutsInto (cs : List Char) (P : List Token → Prop) (rest : List Char) : Prop :=
  ∀ offset, ∃ ts offset', P ts ∧ Cuts ⟨offset, cs⟩ ts ⟨offset', rest⟩

/-- A single token of a kind and a text. -/
def IsSingle (kind : Kind) (text : List Char) (ts : List Token) : Prop :=
  ∃ span, ts = [⟨kind, String.ofList text, span⟩]

theorem isSingle_ofList {kind : Kind} {text : List Char} :
    IsSingle kind text = IsSingle kind (String.ofList text).toList := by
  rw [String.toList_ofList]

namespace CutsInto

variable {as bs cs rest : List Char} {P : List Token → Prop}

theorem nil (h : P []) : CutsInto cs P cs := fun offset => ⟨[], offset, h, .nil _⟩

/-- Skipped text in front of tokens. -/
theorem skipped (hs : IsSkipped as) (h : CutsInto bs P rest) (hne : ¬ P []) :
    CutsInto (as ++ bs) P rest := by
  intro offset
  -- text is skipped on the way to a token, so there has to be one
  obtain ⟨ts, offset', hts, hcuts⟩ := h (offset + Text.utf8Length as)
  cases hcuts with
  | nil => exact absurd hts hne
  | cons hnext hcuts' => exact ⟨_, offset', hts, .cons (next_of_isSkipped hs hnext) hcuts'⟩

/-- A token that begins with a solid character. -/
theorem single {c : Char} {kind : Kind} {text : List Char} (hc : IsSolid c)
    (h : ∀ offset, ∃ span offset',
      tokenAt offset c bs = .ok (⟨kind, String.ofList text, span⟩, ⟨offset', rest⟩)) :
    CutsInto (c :: bs) (IsSingle kind text) rest := by
  intro offset
  obtain ⟨span, offset', ht⟩ := h offset
  exact ⟨_, offset', ⟨span, rfl⟩, .cons (next_of_tokenAt hc ht) (.nil _)⟩

end CutsInto

variable {rest : List Char}

/-- A punctuation mark. -/
theorem cutsInto_mark {c : Char} (hc : singleKind c ≠ .unknown) (rest : List Char) :
    CutsInto (c :: rest) (IsSingle (singleKind c) [c]) rest := by
  have hcases : c = '\x7b' ∨ c = '\x7d' ∨ c = '[' ∨ c = ']' ∨ c = ':' ∨ c = ',' := by
    simp only [singleKind] at hc
    by_contra h
    simp only [not_or] at h
    simp [h] at hc
  refine .single ?_ fun offset => ?_
  · rcases hcases with rfl | rfl | rfl | rfl | rfl | rfl <;> exact ⟨rfl, by decide, by decide⟩
  · rcases hcases with rfl | rfl | rfl | rfl | rfl | rfl <;> exact ⟨_, _, rfl⟩

/-- A string literal. -/
theorem cutsInto_string {body : List Char} (h : IsPiece body) (rest : List Char) :
    CutsInto ('"' :: (body ++ '"' :: rest)) (IsSingle .string body) rest := by
  refine .single ⟨rfl, by decide, by decide⟩ fun offset => ?_
  rw [tokenAt, if_pos rfl, stringToken, h.stringBody_append_quote]
  exact ⟨_, _, rfl⟩

/-- One of the words that stand for values. -/
theorem cutsInto_word {kind : Kind} {word : String} {c : Char} {cs : List Char}
    (hword : word.toList = c :: cs) (hc : IsSolid c)
    (htoken : ∀ offset rest, tokenAt offset c rest = wordToken kind word offset (c :: rest))
    (rest : List Char) :
    CutsInto (word.toList ++ rest) (IsSingle kind word.toList) rest := by
  have hextent : wordExtent word.toList (word.toList ++ rest) = .ok rest := wordExtent_append _ _
  have hcons : word.toList ++ rest = c :: (cs ++ rest) := by rw [hword, List.cons_append]
  rw [hcons] at hextent ⊢
  refine .single hc fun offset => ?_
  rw [htoken, wordToken, hextent]
  exact ⟨_, _, rfl⟩

theorem cutsInto_true (rest : List Char) :
    CutsInto ("true".toList ++ rest) (IsSingle .bool "true".toList) rest :=
  cutsInto_word (c := 't') rfl ⟨rfl, by decide, by decide⟩ (fun _ _ => rfl) rest

theorem cutsInto_false (rest : List Char) :
    CutsInto ("false".toList ++ rest) (IsSingle .bool "false".toList) rest :=
  cutsInto_word (c := 'f') rfl ⟨rfl, by decide, by decide⟩ (fun _ _ => rfl) rest

theorem cutsInto_null (rest : List Char) :
    CutsInto ("null".toList ++ rest) (IsSingle .null "null".toList) rest :=
  cutsInto_word (c := 'n') rfl ⟨rfl, by decide, by decide⟩ (fun _ _ => rfl) rest

/-- A numeral begins with no other character than a digit or a minus sign. -/
theorem ne_of_numeral {c d : Char} (h : c = '-' ∨ c.isDigit = true) (hd : d ≠ '-')
    (hdigit : d.isDigit = false) : c ≠ d := by
  rintro rfl
  rcases h with h | h
  · exact hd h
  · rw [h] at hdigit
    cases hdigit

/-- A digit or a minus sign is solid and begins no string. -/
theorem isSolid_of_numeral {c : Char} (h : c = '-' ∨ c.isDigit = true) : IsSolid c ∧ c ≠ '"' := by
  have hne := fun d => @ne_of_numeral c d h
  refine ⟨⟨?_, hne _ (by decide) rfl, hne _ (by decide) rfl⟩, hne _ (by decide) rfl⟩
  simp only [isBlank, Bool.or_eq_false_iff, beq_eq_false_iff_ne]
  exact ⟨⟨⟨⟨⟨⟨hne _ (by decide) rfl, hne _ (by decide) rfl⟩, hne _ (by decide) rfl⟩,
    hne _ (by decide) rfl⟩, hne _ (by decide) rfl⟩, hne _ (by decide) rfl⟩, hne _ (by decide) rfl⟩

theorem exists_cons_text (n : Numeral) :
    ∃ c cs, n.text = c :: cs ∧ (c = '-' ∨ c.isDigit = true) := by
  rw [Numeral.text]
  cases n.negative with
  | true => exact ⟨'-', n.body, rfl, .inl rfl⟩
  | false =>
      obtain ⟨c, cs, hcs, hc⟩ := n.whole.exists_cons
      rw [Numeral.body, hcs]
      exact ⟨c, _, rfl, .inr hc⟩

/-- A numeral, if what stands behind it is no part of it. -/
theorem cutsInto_numeral (n : Numeral) (h : EndsNumeral rest) :
    CutsInto (n.text ++ rest) (IsSingle .number n.text) rest := by
  obtain ⟨c, cs, hcs, hc⟩ := exists_cons_text n
  obtain ⟨hsolid, hquote⟩ := isSolid_of_numeral hc
  have hextent := numberExtent_append n h
  rw [hcs, List.cons_append] at hextent ⊢
  refine .single hsolid fun offset => ?_
  rw [tokenAt, if_neg hquote, if_pos hc, numberToken, hextent]
  exact ⟨_, _, rfl⟩

end Token

end JsonAxes

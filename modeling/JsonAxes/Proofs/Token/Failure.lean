import JsonAxes.Proofs.Token.Extent
import JsonAxes.Proofs.Token.Gap
import JsonAxes.Proofs.Token.Runs

/-!
# Where the lexer fails

The lexer fails on a piece of the text: a comment or a string literal that is not closed, an escape
that is broken, a number or a word that does not go on as it should, a slash alone. The error points
at that piece, which is never empty, and if it quotes a text, then that piece
(`Lexer.rejects_of_next`).
-/

set_option autoImplicit false

namespace JsonAxes

namespace Token

/-! ## Fronts of a text -/

/-- Whether some characters are the front of a text, and not none of it. -/
def IsFront (taken cs : List Char) : Prop := taken ≠ [] ∧ taken <+: cs

/-- Where digits are missing, what was taken is to blame, with the character behind it. -/
theorem isFront_of_someDigits (taken : List Char) {cs blamed : List Char} (hne : taken ++ cs ≠ [])
    (h : someDigits taken cs = .error blamed) : IsFront blamed (taken ++ cs) := by
  unfold someDigits at h
  simp only at h
  split at h
  · cases h
    constructor
    · cases cs with
      | nil => simpa using hne
      | cons c cs => simp
    · exact (List.prefix_append_right_inj taken).mpr (List.take_prefix 1 cs)
  · cases h

theorem isFront_of_integerPart {cs blamed : List Char} (hne : cs ≠ [])
    (h : integerPart cs = .error blamed) : IsFront blamed cs := by
  unfold integerPart at h
  split at h
  · exact isFront_of_someDigits ['-'] hne h
  · exact isFront_of_someDigits [] hne h

theorem isFront_of_fractionPart {taken cs blamed : List Char}
    (h : fractionPart taken cs = .error blamed) : IsFront blamed (taken ++ cs) := by
  unfold fractionPart at h
  split at h
  · have hfront := isFront_of_someDigits _ (by simp) h
    rwa [List.append_assoc] at hfront
  · cases h

theorem isFront_of_exponentPart {taken cs blamed : List Char}
    (h : exponentPart taken cs = .error blamed) : IsFront blamed (taken ++ cs) := by
  unfold exponentPart at h
  split at h
  · cases h
  · split at h
    · split at h
      · have hfront := isFront_of_someDigits _ (by simp) h
        rwa [List.append_assoc] at hfront
      · have hfront := isFront_of_someDigits _ (by simp) h
        rwa [List.append_assoc] at hfront
      · have hfront := isFront_of_someDigits _ (by simp) h
        rwa [List.append_assoc] at hfront
    · cases h

/-- What shows that a number is none is the front of it. -/
theorem isFront_of_numberExtent {cs blamed : List Char} (hne : cs ≠ [])
    (h : numberExtent cs = .error blamed) : IsFront blamed cs := by
  unfold numberExtent at h
  simp only [bind, Except.bind] at h
  split at h
  · next hinteger =>
    cases h
    exact isFront_of_integerPart hne hinteger
  · next p hinteger =>
    obtain ⟨_, _, -, hcs, hends⟩ := exists_digits_of_integerPart hinteger
    rw [hcs]
    split at h
    · next hfraction =>
      cases h
      exact isFront_of_fractionPart hfraction
    · next q hfraction =>
      obtain ⟨ds?, htaken, hrest, -⟩ := exists_fraction_of_fractionPart hfraction hends
      rw [hrest, ← List.append_assoc, ← htaken]
      exact isFront_of_exponentPart h

theorem prefix_of_wordExtent {word cs blamed : List Char}
    (h : wordExtent word cs = .error blamed) : blamed <+: cs := by
  induction word generalizing cs blamed with
  | nil => cases h
  | cons w word ih =>
      cases cs with
      | nil =>
          cases h
          exact List.nil_prefix
      | cons c cs =>
          unfold wordExtent at h
          split at h
          · split at h
            · cases h
            · next hrest =>
              cases h
              exact List.cons_prefix_cons.mpr ⟨rfl, ih hrest⟩
          · cases h
            exact List.takeWhile_prefix _

/-- What shows that a word is none of the three is the front of it, which begins as one of them
does. -/
theorem isFront_of_wordExtent {c : Char} {word cs blamed : List Char}
    (h : wordExtent (c :: word) (c :: cs) = .error blamed) : IsFront blamed (c :: cs) := by
  refine ⟨?_, prefix_of_wordExtent h⟩
  rw [wordExtent, if_pos rfl] at h
  split at h
  · cases h
  · cases h
    exact List.cons_ne_nil _ _

end Token

/-! ## Errors -/

namespace ReadError

/-- What an error quotes of the text, if it does, as what is wrong. -/
def quoted? : ReadError → Option String
  | unknownToken text _ => some text
  | numberOutOfRange text _ => some text
  | unknownIdentifier text _ => some text
  | malformedEscape text _ => some text
  | _ => none

/-- Whether an error is about the characters of a text, and not about what its tokens spell. -/
def isLexical : ReadError → Bool
  | unknownToken .. => true
  | unknownIdentifier .. => true
  | unterminatedString _ => true
  | unterminatedEscape _ => true
  | malformedEscape .. => true
  | unterminatedComment _ => true
  | _ => false

end ReadError

namespace Lexer

open Token

/-- Whether a span is that of a piece of a text, which begins at an offset. -/
def Covers (offset : Nat) (cs : List Char) (span : Span) (piece : List Char) : Prop :=
  ∃ before, before ++ piece <+: cs ∧ span = spanOf (offset + Text.utf8Length before) piece

/-- Whether an error points at a piece of a text, and not at none of it. -/
def Blames (offset : Nat) (cs : List Char) (e : ReadError) : Prop :=
  ∃ span piece, e.span? = some span ∧ piece ≠ [] ∧ Covers offset cs span piece

/-- Whether an error rejects a piece of a text: it is about characters and points at that piece,
which is not empty, and it quotes no other. -/
def Rejects (offset : Nat) (cs : List Char) (e : ReadError) : Prop :=
  ∃ span piece, e.isLexical = true ∧ e.span? = some span ∧ piece ≠ []
    ∧ Covers offset cs span piece ∧ ∀ quoted ∈ e.quoted?, quoted = String.ofList piece

variable {offset : Nat} {c : Char} {cs rest : List Char} {e : ReadError}

theorem Rejects.blames (h : Rejects offset cs e) : Blames offset cs e := by
  obtain ⟨span, piece, -, hspan, hpiece, hcovers, -⟩ := h
  exact ⟨span, piece, hspan, hpiece, hcovers⟩

theorem Covers.append {span : Span} {piece : List Char} {front : List Char}
    (h : Covers (offset + Text.utf8Length front) cs span piece) :
    Covers offset (front ++ cs) span piece := by
  obtain ⟨before, hbefore, hspan⟩ := h
  refine ⟨front ++ before, ?_, ?_⟩
  · rw [List.append_assoc]
    exact (List.prefix_append_right_inj front).mpr hbefore
  · rw [hspan, Text.utf8Length_append, Nat.add_assoc]

theorem Blames.append {front : List Char} (h : Blames (offset + Text.utf8Length front) cs e) :
    Blames offset (front ++ cs) e := by
  obtain ⟨span, piece, hspan, hpiece, hcovers⟩ := h
  exact ⟨span, piece, hspan, hpiece, hcovers.append⟩

theorem Rejects.append {front : List Char} (h : Rejects (offset + Text.utf8Length front) cs e) :
    Rejects offset (front ++ cs) e := by
  obtain ⟨span, piece, hlexical, hspan, hpiece, hcovers, hquoted⟩ := h
  exact ⟨span, piece, hlexical, hspan, hpiece, hcovers.append, hquoted⟩

theorem covers_of_isFront {piece : List Char} (h : IsFront piece cs) :
    Covers offset cs (spanOf offset piece) piece := ⟨[], h.2, rfl⟩

theorem rejects_of_isFront {piece : List Char} (h : IsFront piece cs)
    (hlexical : e.isLexical = true) (he : e.span? = some (spanOf offset piece))
    (hquoted : ∀ quoted ∈ e.quoted?, quoted = String.ofList piece) : Rejects offset cs e :=
  ⟨spanOf offset piece, piece, hlexical, he, h.1, covers_of_isFront h, hquoted⟩

theorem eq_of_mem_some {quoted text : String} (h : quoted ∈ some text) : quoted = text :=
  (Option.mem_some.mp h).symm

theorem rejects_of_stringToken (h : stringToken offset rest = .error e) :
    Rejects offset ('"' :: rest) e := by
  have hquote : ∀ cs, Text.utf8Length ('"' :: cs) = 1 + Text.utf8Length cs := fun _ => rfl
  unfold stringToken at h
  cases hbody : stringBody rest with
  | mk body ending =>
      -- a literal without an end is to blame as a whole, a broken escape without what is before it
      rw [hbody] at h
      obtain ⟨left, rfl, hends⟩ := exists_append_of_stringBody hbody
      cases ending with
      | closed => cases h
      | unterminated =>
          cases h
          have hleft : left = [] := hends
          have hfront : IsFront ('"' :: body) ('"' :: (body ++ left)) :=
            ⟨List.cons_ne_nil _ _, by rw [hleft, List.append_nil]⟩
          refine rejects_of_isFront hfront rfl ?_ nofun
          rw [spanOf, hquote, ← Nat.add_assoc]
          rfl
      | unterminatedEscape =>
          cases h
          have hleft : left = ['\\'] := hends
          refine ⟨_, ['\\'], rfl, rfl, List.cons_ne_nil _ _, ⟨'"' :: body, ?_, ?_⟩, nofun⟩
          · rw [hleft]
            simp
          · rw [hquote, ← Nat.add_assoc]
            rfl
      | malformedEscape escape =>
          cases h
          obtain ⟨hne, hfront⟩ : escape ≠ [] ∧ escape <+: left := hends
          refine ⟨_, escape, rfl, rfl, hne, ⟨'"' :: body, ?_, ?_⟩, fun _ => eq_of_mem_some⟩
          · exact (List.prefix_append_right_inj ('"' :: body)).mpr hfront
          · rw [hquote, ← Nat.add_assoc]

theorem rejects_of_numberToken (hne : cs ≠ []) (h : numberToken offset cs = .error e) :
    Rejects offset cs e := by
  unfold numberToken at h
  split at h
  · cases h
  · next taken hextent =>
    cases h
    exact rejects_of_isFront (isFront_of_numberExtent hne hextent) rfl rfl fun _ => eq_of_mem_some

theorem rejects_of_wordToken {kind : Kind} {word : String} (hword : word.toList.head? = some c)
    (h : wordToken kind word offset (c :: rest) = .error e) : Rejects offset (c :: rest) e := by
  unfold wordToken at h
  split at h
  · cases h
  · next taken hextent =>
    cases h
    obtain ⟨more, hmore⟩ := List.head?_eq_some_iff.mp hword
    rw [hmore] at hextent
    exact rejects_of_isFront (isFront_of_wordExtent hextent) rfl rfl fun _ => eq_of_mem_some

theorem rejects_of_tokenAt (h : tokenAt offset c rest = .error e) :
    Rejects offset (c :: rest) e := by
  unfold tokenAt at h
  split at h
  · next hquote =>
    rw [hquote]
    exact rejects_of_stringToken h
  split at h
  · exact rejects_of_numberToken (List.cons_ne_nil c rest) h
  split at h
  · next hc => exact rejects_of_wordToken (by rw [hc]; rfl) h
  split at h
  · next hc => exact rejects_of_wordToken (by rw [hc]; rfl) h
  split at h
  · next hc => exact rejects_of_wordToken (by rw [hc]; rfl) h
  split at h
  · next hslash =>
    cases h
    have hfront : IsFront ['/'] (c :: rest) := by
      rw [hslash]
      exact ⟨List.cons_ne_nil _ _, List.cons_prefix_cons.mpr ⟨rfl, List.nil_prefix⟩⟩
    exact rejects_of_isFront hfront rfl rfl fun _ => eq_of_mem_some
  · cases h

/-- A comment that is not closed is to blame up to the end of the text. -/
theorem rejects_of_skipTrivia (h : skipTrivia offset cs = .error e) : Rejects offset cs e := by
  fun_induction skipTrivia offset cs with
  | case1 => cases h
  | case2 offset cs skipped rest hfirst _ ih =>
      obtain ⟨happend, -⟩ := Gap.append_of_first hfirst
      rw [← happend]
      exact (ih h).append
  | case3 offset cs hfirst =>
      cases h
      have hne : cs ≠ [] := by
        rintro rfl
        cases hfirst
      have hfront : IsFront cs cs := ⟨hne, List.prefix_refl cs⟩
      exact rejects_of_isFront hfront rfl rfl fun _ h => absurd h (Option.not_mem_none _)

/-- The lexer fails on a piece of the text that is left to it. -/
theorem rejects_of_next (h : (next ⟨offset, cs⟩).1 = some (.error e)) : Rejects offset cs e := by
  unfold next at h
  split at h
  · next hskip =>
    cases h
    exact rejects_of_skipTrivia hskip
  · cases h
  · next start c rest hskip =>
    split at h
    · next ht =>
      cases h
      obtain ⟨gap, hcs, -, hstart⟩ := exists_isGap_of_skipTrivia hskip
      have hcs : cs = gap ++ c :: rest := hcs
      have hstart : start = offset + Text.utf8Length gap := hstart
      rw [hcs]
      apply Rejects.append
      rw [← hstart]
      exact rejects_of_tokenAt ht
    · cases h

end Lexer

end JsonAxes

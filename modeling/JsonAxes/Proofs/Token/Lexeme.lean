import JsonAxes.Proofs.Text.Escapable
import JsonAxes.Proofs.Token.Extent

/-!
# Lexemes

A lexeme is what a token is written as: a punctuation mark, a string literal, a numeral, or one of
three words. `Lexeme.written` is how it stands in a text, `Lexeme.text` the text of its token, which
for a string literal is the body without the quotes. From the front of a text the lexer cuts the
lexeme that stands there (`Lexeme.cutsInto`). Whatever token it cuts is written as a lexeme, or is a
single character that no lexeme begins with (`Lexer.exists_writtenAs_of_tokenAt`).
-/

set_option autoImplicit false

namespace JsonAxes

namespace Token

/-! ## Bodies of string literals -/

/-- Bodies of string literals: every backslash begins an escape, and no quote stands outside of
one. -/
inductive IsBody : List Char → Prop where
  | nil : IsBody []
  | plain {c : Char} {cs : List Char} (hquote : c ≠ '"') (hslash : c ≠ '\\') (h : IsBody cs) :
      IsBody (c :: cs)
  | letter {e : Char} {cs : List Char} (he : e ∈ ['"', '\\', '/', 'b', 'f', 'n', 'r', 't'])
      (h : IsBody cs) : IsBody ('\\' :: e :: cs)
  | unit {a b c d : Char} {cs : List Char} (ha : Text.isHexDigit a = true)
      (hb : Text.isHexDigit b = true) (hc : Text.isHexDigit c = true)
      (hd : Text.isHexDigit d = true) (h : IsBody cs) :
      IsBody ('\\' :: 'u' :: a :: b :: c :: d :: cs)

theorem isSimpleEscape_iff (e : Char) :
    isSimpleEscape e = true ↔ e ∈ ['"', '\\', '/', 'b', 'f', 'n', 'r', 't'] := by
  simp [isSimpleEscape, or_assoc]

theorem IsBody.wellEscaped {body : List Char} (h : IsBody body) : Text.WellEscaped body := by
  induction h with
  | nil => exact .nil
  | plain _ hslash _ ih => exact .plain hslash ih
  | letter he _ ih => exact .letter he ih
  | unit ha hb hc hd _ ih => exact .unit ha hb hc hd ih

/-- A body is taken whole. -/
theorem IsBody.isPiece {body : List Char} (h : IsBody body) : IsPiece body := by
  induction h with
  | nil => exact isPiece_nil
  | plain hquote hslash _ ih => exact (isPiece_of_ne hquote hslash).append ih
  | letter he _ ih => exact (isPiece_simpleEscape ((isSimpleEscape_iff _).mpr he)).append ih
  | unit ha hb hc hd _ ih => exact (isPiece_unit ha hb hc hd).append ih

/-- What is taken up to a closing quote is a body. -/
theorem isBody_of_stringBody {cs body after : List Char}
    (h : stringBody cs = (body, .closed after)) : IsBody body := by
  fun_induction stringBody cs generalizing body with
  | case1 => cases h
  | case2 rest =>
      cases h
      exact .nil
  | case3 => cases h
  | case4 => cases h
  | case5 rest n hextent body' ending hbody _ ih =>
      cases h
      have hrest := ih hbody
      rcases escapeExtent_eq_whole hextent with ⟨e, more, rfl, hsimple, rfl⟩
        | ⟨more, unit, left, rfl, hunit, rfl⟩
      · exact .letter ((isSimpleEscape_iff e).mp hsimple) hrest
      · obtain ⟨a, b, c, d, rfl, ha, hb, hc, hd⟩ := Text.exists_digits_of_hexUnit? hunit
        exact .unit ha hb hc hd hrest
  | case6 c rest hquote hslash body' ending hbody ih =>
      cases h
      exact .plain hquote hslash (ih hbody)

end Token

open Token

/-! ## Lexemes -/

/-- A punctuation mark, a literal, or a word. -/
inductive Lexeme where
  | objectOpen
  | objectClose
  | arrayOpen
  | arrayClose
  | colon
  | comma
  | string (body : List Char) (isBody : IsBody body)
  | number (n : Numeral)
  | bool (b : Bool)
  | null

namespace Lexeme

/-- The kind of the token of a lexeme. -/
def kind : Lexeme → Kind
  | objectOpen => .objectOpen
  | objectClose => .objectClose
  | arrayOpen => .arrayOpen
  | arrayClose => .arrayClose
  | colon => .colon
  | comma => .comma
  | string _ _ => .string
  | number _ => .number
  | bool _ => .bool
  | null => .null

/-- The text of the token of a lexeme. -/
def text : Lexeme → List Char
  | objectOpen => ['\x7b']
  | objectClose => ['\x7d']
  | arrayOpen => ['[']
  | arrayClose => [']']
  | colon => [':']
  | comma => [',']
  | string body _ => body
  | number n => n.text
  | bool b => (if b then "true" else "false").toList
  | null => "null".toList

/-- A lexeme as it stands in a text. -/
def written : Lexeme → List Char
  | string body _ => '"' :: (body ++ ['"'])
  | x => x.text

/-- A lexeme begins with a mark, a quote, a minus sign, a digit or the letter of a word. -/
theorem exists_cons_written (x : Lexeme) :
    ∃ c cs, x.written = c :: cs ∧ (c ∈ ['\x7b', '\x7d', '[', ']', ':', ',', '"', 't', 'f', 'n']
      ∨ x.kind = .number ∧ (c = '-' ∨ c.isDigit = true)) := by
  cases x with
  | number n =>
      obtain ⟨c, cs, hcs, hc⟩ := exists_cons_text n
      exact ⟨c, cs, hcs, .inr ⟨rfl, hc⟩⟩
  | bool b => cases b <;> exact ⟨_, _, rfl, .inl (by decide)⟩
  | _ => exact ⟨_, _, rfl, .inl (by decide)⟩

theorem written_ne_nil (x : Lexeme) : x.written ≠ [] := by
  obtain ⟨c, cs, hcs, -⟩ := x.exists_cons_written
  rw [hcs]
  exact List.cons_ne_nil c cs

/-- A lexeme does not read as a part of a numeral in front of it, unless it begins with a digit. -/
theorem endsNumeral_written {x : Lexeme}
    (h : x.kind = .number → ∀ c ∈ x.written.head?, c.isDigit = false) :
    EndsNumeral x.written := by
  obtain ⟨c, cs, hcs, hc⟩ := x.exists_cons_written
  rw [hcs]
  apply endsNumeral_cons
  rcases hc with hmark | ⟨hnumber, rfl | hdigit⟩
  · have hall : ∀ c ∈ ['\x7b', '\x7d', '[', ']', ':', ',', '"', 't', 'f', 'n'],
        c.isDigit = false ∧ c ≠ '.' ∧ c ≠ 'e' ∧ c ≠ 'E' :=
      List.forall_iff_forall_mem.mp (by decide)
    exact hall c hmark
  · decide
  · have hnot : c.isDigit = false := h hnumber c (by rw [hcs]; rfl)
    rw [hdigit] at hnot
    cases hnot

/-- The lexer cuts off a lexeme as it is written; behind a number, what follows must not read as a
part of it. -/
theorem cutsInto (x : Lexeme) {rest : List Char} (h : x.kind = .number → EndsNumeral rest) :
    CutsInto (x.written ++ rest) (IsSingle x.kind x.text) rest := by
  cases x with
  | objectOpen => exact cutsInto_mark (c := '\x7b') (by decide) rest
  | objectClose => exact cutsInto_mark (c := '\x7d') (by decide) rest
  | arrayOpen => exact cutsInto_mark (c := '[') (by decide) rest
  | arrayClose => exact cutsInto_mark (c := ']') (by decide) rest
  | colon => exact cutsInto_mark (c := ':') (by decide) rest
  | comma => exact cutsInto_mark (c := ',') (by decide) rest
  | string body isBody =>
      show CutsInto (('"' :: (body ++ ['"'])) ++ rest) (IsSingle .string body) rest
      have hcuts := cutsInto_string isBody.isPiece rest
      simpa using hcuts
  | number n => exact cutsInto_numeral n (h rfl)
  | bool b =>
      cases b with
      | false => exact cutsInto_false rest
      | true => exact cutsInto_true rest
  | null => exact cutsInto_null rest

/-- Behind a lexeme no escape is begun. -/
theorem begun_written (x : Lexeme) : Canonical.begun false x.written = false := by
  cases x with
  | string body _ => exact Canonical.begun_concat false ('"' :: body) (by decide)
  | number n => exact Canonical.begun_of_notMem n.backslash_notMem_text
  | bool b => cases b <;> rfl
  | _ => rfl

end Lexeme

namespace Token

/-- Whether a token has the kind and the text of a lexeme. -/
def IsOf (t : Token) (x : Lexeme) : Prop := t.kind = x.kind ∧ t.text = String.ofList x.text

/-- What a token is written as: a lexeme, or one character that no lexeme begins with. -/
inductive WrittenAs (t : Token) : List Char → Prop where
  | lexeme {x : Lexeme} (h : t.IsOf x) : WrittenAs t x.written
  | unknown {c : Char} (hkind : t.kind = .unknown) (htext : t.text = String.ofList [c])
      (hnone : ∀ x : Lexeme, x.written.head? ≠ some c) : WrittenAs t [c]

theorem WrittenAs.ne_nil {t : Token} {piece : List Char} (h : t.WrittenAs piece) : piece ≠ [] := by
  cases h with
  | @lexeme x _ => exact x.written_ne_nil
  | @unknown c _ _ _ => exact List.cons_ne_nil c []

/-- In the text of a string token every backslash begins an escape. -/
theorem WrittenAs.wellEscaped {t : Token} {piece : List Char} (h : t.WrittenAs piece)
    (hkind : t.kind = .string) : Text.WellEscaped t.text.toList := by
  cases h with
  | @lexeme x h =>
      obtain ⟨hx, htext⟩ := h
      rw [htext, String.toList_ofList]
      rw [hkind] at hx
      cases x with
      | string body isBody => exact isBody.wellEscaped
      | _ => cases hx
  | unknown hunknown _ _ =>
      rw [hkind] at hunknown
      cases hunknown

/-- Whether a token is cut off a piece of text, whatever stands behind that: behind a number, only
what is no part of a numeral. -/
def CutFrom (t : Token) (piece : List Char) : Prop :=
  ∀ rest, (t.kind = .number → EndsNumeral rest) →
    CutsInto (piece ++ rest) (IsSingle t.kind t.text.toList) rest

theorem IsOf.cutFrom {t : Token} {x : Lexeme} (h : t.IsOf x) : t.CutFrom x.written := by
  intro rest hends
  rw [h.1] at hends
  rw [h.1, h.2, ← isSingle_ofList]
  exact x.cutsInto hends

end Token

/-! ## What the lexer cuts -/

namespace Lexer

/-- What there is to know of a token that begins at an offset: the piece of text that it was cut
from, which ends in no backslash, and that behind a number there is no digit. -/
structure CutAt (offset : Nat) (cs : List Char) (t : Token) (l : Lexer) (piece : List Char) :
    Prop where
  append : cs = piece ++ l.rest
  stop : l.offset = offset + Text.utf8Length piece
  span : t.span = spanOf offset piece
  cutFrom : t.CutFrom piece
  begun : Canonical.begun false piece = false
  number : t.kind = .number → EndsDigits l.rest

/-- Whether a token is cut off a lexeme that stands at an offset. -/
structure Takes (offset : Nat) (cs : List Char) (t : Token) (l : Lexer) (x : Lexeme) : Prop where
  isOf : t.IsOf x
  append : cs = x.written ++ l.rest
  stop : l.offset = offset + Text.utf8Length x.written
  span : t.span = spanOf offset x.written
  number : x.kind = .number → EndsDigits l.rest

variable {offset : Nat} {c : Char} {cs rest : List Char} {t : Token} {l : Lexer}

theorem Takes.cutAt {x : Lexeme} (h : Takes offset cs t l x) : CutAt offset cs t l x.written where
  append := h.append
  stop := h.stop
  span := h.span
  cutFrom := h.isOf.cutFrom
  begun := x.begun_written
  number hnumber := h.number (h.isOf.1 ▸ hnumber)

theorem exists_takes_of_stringToken (h : stringToken offset rest = .ok (t, l)) :
    ∃ x, Takes offset ('"' :: rest) t l x := by
  unfold stringToken at h
  cases hbody : stringBody rest with
  | mk body ending =>
      rw [hbody] at h
      cases ending with
      | unterminated => cases h
      | unterminatedEscape => cases h
      | malformedEscape escape => cases h
      | closed after =>
          cases h
          obtain ⟨left, hrest, hleft⟩ := exists_append_of_stringBody hbody
          have happend : '"' :: rest = ('"' :: (body ++ ['"'])) ++ after :=
            calc '"' :: rest = '"' :: (body ++ '"' :: after) := by rw [hrest, hleft]
              _ = ('"' :: (body ++ ['"'])) ++ after := by simp
          have hlength : offset + 1 + Text.utf8Length body + 1
              = offset + Text.utf8Length ('"' :: (body ++ ['"'])) := by
            have hquote : Char.utf8Size '"' = 1 := rfl
            rw [Text.utf8Length_cons, Text.utf8Length_append, Text.utf8Length_cons,
              Text.utf8Length_nil, hquote]
            omega
          exact ⟨.string body (isBody_of_stringBody hbody), ⟨rfl, rfl⟩, happend, hlength,
            congrArg (Span.mk offset) hlength, nofun⟩

theorem exists_takes_of_numberToken (h : numberToken offset cs = .ok (t, l)) :
    ∃ x, Takes offset cs t l x := by
  unfold numberToken at h
  split at h
  · next taken rest hextent =>
    cases h
    obtain ⟨n, rfl, happend, hrest⟩ := exists_numeral_of_numberExtent hextent
    exact ⟨.number n, ⟨rfl, rfl⟩, happend, rfl, rfl, fun _ => hrest⟩
  · cases h

/-- A word is taken off where it stands. -/
theorem takes_of_wordToken {kind : Kind} {word : String} {x : Lexeme} (hkind : x.kind = kind)
    (hnumber : x.kind ≠ .number) (htext : x.text = word.toList) (hwritten : x.written = word.toList)
    (h : wordToken kind word offset cs = .ok (t, l)) : Takes offset cs t l x := by
  unfold wordToken at h
  split at h
  · next rest hextent =>
    cases h
    refine ⟨⟨hkind.symm, ?_⟩, ?_, ?_, ?_, fun h => absurd h hnumber⟩
    · rw [htext]
    · rw [hwritten]
      exact append_of_wordExtent hextent
    · rw [hwritten]
      rfl
    · rw [hwritten]
  · cases h

/-- The character of a punctuation mark is that of a lexeme. -/
theorem exists_lexeme_of_singleKind (h : singleKind c ≠ .unknown) :
    ∃ x : Lexeme, x.kind = singleKind c ∧ x.text = [c] ∧ x.written = [c] := by
  by_cases h₁ : c = '\x7b'
  · exact ⟨.objectOpen, by rw [h₁]; exact ⟨rfl, rfl, rfl⟩⟩
  by_cases h₂ : c = '\x7d'
  · exact ⟨.objectClose, by rw [h₂]; exact ⟨rfl, rfl, rfl⟩⟩
  by_cases h₃ : c = '['
  · exact ⟨.arrayOpen, by rw [h₃]; exact ⟨rfl, rfl, rfl⟩⟩
  by_cases h₄ : c = ']'
  · exact ⟨.arrayClose, by rw [h₄]; exact ⟨rfl, rfl, rfl⟩⟩
  by_cases h₅ : c = ':'
  · exact ⟨.colon, by rw [h₅]; exact ⟨rfl, rfl, rfl⟩⟩
  by_cases h₆ : c = ','
  · exact ⟨.comma, by rw [h₆]; exact ⟨rfl, rfl, rfl⟩⟩
  · exact absurd (by simp [singleKind, h₁, h₂, h₃, h₄, h₅, h₆]) h

theorem exists_takes_of_mark (h : singleKind c ≠ .unknown) :
    ∃ x, Takes offset (c :: rest) (covering (singleKind c) offset [c] rest).1
      (covering (singleKind c) offset [c] rest).2 x := by
  obtain ⟨x, hkind, htext, hwritten⟩ := exists_lexeme_of_singleKind h
  have hnumber : x.kind ≠ .number := by
    rw [hkind]
    unfold singleKind
    repeat' split
    all_goals decide
  refine ⟨x, ⟨hkind.symm, ?_⟩, ?_, ?_, ?_, fun h => absurd h hnumber⟩
  · rw [htext]
    rfl
  · rw [hwritten]
    rfl
  · rw [hwritten]
    rfl
  · rw [hwritten]
    rfl

/-- A token is cut off the lexeme that stands there, or is a character that begins none. -/
theorem exists_takes_or_of_tokenAt (h : tokenAt offset c rest = .ok (t, l)) :
    (∃ x, Takes offset (c :: rest) t l x)
    ∨ (∀ x : Lexeme, x.written.head? ≠ some c)
      ∧ (t, l) = covering .unknown offset [c] rest := by
  unfold tokenAt at h
  split at h
  · next hc =>
    rw [hc]
    exact .inl (exists_takes_of_stringToken h)
  next hquote =>
  split at h
  · exact .inl (exists_takes_of_numberToken h)
  next hnumber =>
  split at h
  · exact .inl ⟨.bool true, takes_of_wordToken rfl nofun rfl rfl h⟩
  next htrue =>
  split at h
  · exact .inl ⟨.bool false, takes_of_wordToken rfl nofun rfl rfl h⟩
  next hfalse =>
  split at h
  · exact .inl ⟨.null, takes_of_wordToken rfl nofun rfl rfl h⟩
  next hnull =>
  split at h
  · cases h
  next hslash =>
  by_cases hmark : singleKind c = .unknown
  · right
    rw [hmark] at h
    refine ⟨?_, (Except.ok.inj h).symm⟩
    -- whatever a lexeme begins with has been looked for by now
    intro x hx
    obtain ⟨d, cs, hcs, hd⟩ := x.exists_cons_written
    rw [hcs] at hx
    obtain rfl : d = c := Option.some.inj hx
    rcases hd with hd | ⟨-, hd⟩
    · have hnone : singleKind d ≠ .unknown ∨ d ∈ ['"', 't', 'f', 'n'] := by
        have hall : ∀ c ∈ ['\x7b', '\x7d', '[', ']', ':', ',', '"', 't', 'f', 'n'],
            singleKind c ≠ .unknown ∨ c ∈ ['"', 't', 'f', 'n'] :=
          List.forall_iff_forall_mem.mp (by decide)
        exact hall d hd
      simp [hmark, hquote, htrue, hfalse, hnull] at hnone
    · exact hnumber hd
  · left
    cases h
    exact exists_takes_of_mark hmark

/-- Where a token is of any use, it is cut from a piece of the text. -/
theorem cutAt_of_tokenAt (h : tokenAt offset c rest = .ok (t, l)) (hkind : t.kind ≠ .unknown) :
    ∃ piece, CutAt offset (c :: rest) t l piece := by
  rcases exists_takes_or_of_tokenAt h with ⟨x, hx⟩ | ⟨-, heq⟩
  · exact ⟨x.written, hx.cutAt⟩
  · cases heq
    exact absurd rfl hkind

/-- A token covers the piece of the text that it is written as. -/
theorem exists_writtenAs_of_tokenAt (h : tokenAt offset c rest = .ok (t, l)) :
    ∃ piece, t.WrittenAs piece ∧ c :: rest = piece ++ l.rest ∧ t.span = spanOf offset piece
      ∧ l.offset = offset + Text.utf8Length piece := by
  rcases exists_takes_or_of_tokenAt h with ⟨x, hx⟩ | ⟨hnone, heq⟩
  · exact ⟨x.written, .lexeme hx.isOf, hx.append, hx.span, hx.stop⟩
  · cases heq
    exact ⟨[c], .unknown rfl rfl hnone, rfl, rfl, rfl⟩

end Lexer

end JsonAxes

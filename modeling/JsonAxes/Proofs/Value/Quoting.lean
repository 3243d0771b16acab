import JsonAxes.Proofs.Value.Lexed

/-!
# What errors quote

An error of reading a text points into that text. Where it quotes what is wrong, it quotes just what
it points at; where it says what was found instead of something else, it names the token it points
at, or the end of the text; and where containers are nested too deep, it points at the bracket that
opens one too many (`Value.ofCanonical?_quotes`).

An error of the lexer rejects a piece of the text, as was shown for a run of the lexer. One of the
reader is made at a token, which covers the piece that it is written as, or at the end of the last.
-/

set_option autoImplicit false

namespace JsonAxes

open Lexer (Covers spanOf)

/-- What an error says was found instead of something else, if it does. -/
def ReadError.got? : ReadError → Option String
  | expectedValue got _ => some got
  | expected _ got _ => some got
  | _ => none

/-! ## Spans and pieces -/

namespace Lexer

variable {offset : Nat} {cs piece : List Char} {span : Span}

theorem Covers.bounds_le (h : Covers offset cs span piece) :
    offset ≤ span.lo ∧ span.lo ≤ span.hi ∧ span.hi ≤ offset + Text.utf8Length cs := by
  obtain ⟨before, ⟨behind, rfl⟩, rfl⟩ := h
  simp only [spanOf, Text.utf8Length_append]
  omega

/-- Behind a piece stands an empty one. -/
theorem Covers.point (h : Covers offset cs span piece) :
    Covers offset cs (.point span.hi) [] := by
  obtain ⟨before, hbefore, rfl⟩ := h
  refine ⟨before ++ piece, by rwa [List.append_nil], ?_⟩
  simp only [spanOf, Span.point, Text.utf8Length_append, Text.utf8Length_nil, Nat.add_assoc,
    Nat.add_zero]

end Lexer

namespace Token.WrittenAs

variable {t : Token} {piece : List Char}

/-- The text of any token but a string is what the token is written as. -/
theorem text_eq (h : t.WrittenAs piece) (hkind : t.kind ≠ .string) :
    t.text = String.ofList piece := by
  cases h with
  | @lexeme x h =>
      obtain ⟨hx, htext⟩ := h
      cases x with
      | string body isBody => exact absurd hx hkind
      | _ => exact htext
  | unknown _ htext _ => exact htext

/-- What opens a container is written as a bracket. -/
theorem eq_of_opens (h : t.WrittenAs piece)
    (hkind : t.kind = .objectOpen ∨ t.kind = .arrayOpen) : piece = ['\x7b'] ∨ piece = ['['] := by
  obtain ⟨x, ⟨hx, -⟩, rfl⟩ := h.exists_isOf (by rcases hkind with h | h <;> rw [h] <;> nofun)
  rw [hx] at hkind
  cases x with
  | objectOpen => exact .inl rfl
  | arrayOpen => exact .inr rfl
  | _ => rcases hkind with h | h <;> cases h

end Token.WrittenAs

/-! ## Errors of a text -/

namespace Reader

variable (r : Reader) (got : String) (span : Span)

theorem quoted?_refuse : (r.refuse got span).quoted? = none := by
  cases r <;> rfl

theorem got?_refuse : (r.refuse got span).got? = some got := by
  cases r <;> rfl

theorem refuse_ne_nestingTooDeep (most : Nat) (place : Span) :
    r.refuse got span ≠ .nestingTooDeep most place := by
  cases r <;> nofun

end Reader

theorem ReadError.got?_of_isLexical {e : ReadError} (h : e.isLexical = true) : e.got? = none := by
  cases e with
  | expectedValue | expected => cases h
  | _ => rfl

namespace Value

/-- Whether what an error says of a text is so at its span, which is that of a piece of the text. -/
structure Quotes (text : String) (limit : Nat) (e : ReadError) (span : Span)
    (piece : List Char) : Prop where
  span? : e.span? = some span
  covers : Covers 0 text.toList span piece
  /-- What is quoted is the piece. -/
  quoted : ∀ quoted ∈ e.quoted?, quoted = String.ofList piece
  /-- What was found is a token, or the end of the text. -/
  got : ∀ got ∈ e.got?, ∃ ts, Token.lex text = .ok ts
    ∧ ((∃ t ∈ ts, span = t.span ∧ got = t.display)
      ∨ got = "end of input" ∧ span = .point (endOf ts))
  /-- What is nested too deep is opened here. -/
  tooDeep : ∀ most place, e = .nestingTooDeep most place → most = limit
    ∧ (piece = ['\x7b'] ∨ piece = ['['])
    ∧ ∃ ts, Token.lex text = .ok ts ∧ ∃ t ∈ ts, span = t.span
      ∧ (t.kind = .objectOpen ∨ t.kind = .arrayOpen)

variable {text : String} {limit : Nat} {ts : List Token} {t : Token} {e : ReadError}

/-- An error of the lexer names no token. -/
theorem quotes_of_rejects (h : Lexer.Rejects 0 text.toList e) :
    ∃ span piece, Quotes text limit e span piece := by
  obtain ⟨span, piece, hlexical, hspan, -, hcovers, hquoted⟩ := h
  refine ⟨span, piece, hspan, hcovers, hquoted, ?_, ?_⟩
  · rw [ReadError.got?_of_isLexical hlexical]
    nofun
  · rintro most place rfl
    cases hlexical

theorem quotes_of_refuse {r : Reader} {got : String} {span : Span} {piece : List Char}
    (hcovers : Covers 0 text.toList span piece) (hlex : Token.lex text = .ok ts)
    (hgot : (∃ t ∈ ts, span = t.span ∧ got = t.display)
      ∨ got = "end of input" ∧ span = .point (endOf ts)) :
    Quotes text limit (r.refuse got span) span piece where
  span? := r.span?_refuse got span
  covers := hcovers
  quoted := by
    rw [r.quoted?_refuse]
    nofun
  got := by
    rw [r.got?_refuse]
    rintro _ ⟨⟩
    exact ⟨ts, hlex, hgot⟩
  tooDeep most place h := absurd h (r.refuse_ne_nestingTooDeep got span most place)

/-- An error made at a token points at it. -/
theorem quotes_of_token (hlex : Token.lex text = .ok ts) (ht : t ∈ ts)
    (h : Reader.Refusal limit t e) : ∃ span piece, Quotes text limit e span piece := by
  obtain ⟨last, htiles⟩ := tiles_of_lex hlex
  obtain ⟨piece, hwritten, hcovers⟩ := htiles.exists_covers ht
  refine ⟨t.span, piece, ?_⟩
  cases h with
  | unexpected r => exact quotes_of_refuse hcovers hlex (.inl ⟨t, ht, rfl, rfl⟩)
  | tooDeep hkind =>
      refine ⟨rfl, hcovers, nofun, nofun, ?_⟩
      rintro most place ⟨⟩
      exact ⟨rfl, hwritten.eq_of_opens hkind, ts, hlex, t, ht, rfl, hkind⟩
  | outOfRange hkind =>
      refine ⟨rfl, hcovers, ?_, nofun, nofun⟩
      rintro _ ⟨⟩
      exact hwritten.text_eq (by rw [hkind]; nofun)

/-- The end of the tokens of a text lies in the text. -/
theorem covers_endOf (h : Token.lex text = .ok ts) :
    Covers 0 text.toList (.point (endOf ts)) [] := by
  obtain ⟨last, htiles⟩ := tiles_of_lex h
  rcases List.eq_nil_or_concat' ts with rfl | ⟨front, t, rfl⟩
  · exact ⟨[], List.nil_prefix, rfl⟩
  · obtain ⟨piece, -, hcovers⟩ := htiles.exists_covers (by simp : t ∈ front ++ [t])
    rw [endOf, List.getLast?_concat]
    exact hcovers.point

theorem rejects_of_lex (h : Token.lex text = .error e) : Lexer.Rejects 0 text.toList e := by
  rw [Token.lex] at h
  split at h
  · cases h
  · next herror =>
    cases h
    exact Lexer.rejects_of_drain herror

/-- **Errors quote the text at their spans.** The span of an error is that of a piece of the text.
An error that quotes what is wrong quotes that piece. One that says what was found instead of
something else names the token at its span, or the end of the text, and then its span is the empty
one behind the last token. One of nesting too deep points at an opening bracket. -/
theorem ofCanonical?_quotes (text : String) (limit : Nat) (e : ReadError)
    (h : ofCanonical? limit text = .error e) :
    ∃ span piece, Quotes text limit e span piece
      ∧ span.lo ≤ span.hi ∧ span.hi ≤ Text.utf8Length text.toList := by
  obtain ⟨span, piece, hquotes⟩ : ∃ span piece, Quotes text limit e span piece := by
    -- either the lexer fails, or the reader does at one of its tokens or behind them
    cases hlex : Token.lex text with
    | error e' =>
        rw [ofCanonical?, hlex] at h
        cases h
        exact quotes_of_rejects (rejects_of_lex hlex)
    | ok ts =>
        rw [ofCanonical?, hlex] at h
        obtain ⟨t, ht, hrefusal⟩ | ⟨r, rfl⟩ := refusal_of_ofTokens? (isSound_of_lex hlex) h
        · exact quotes_of_token hlex ht hrefusal
        · exact ⟨_, [], quotes_of_refuse (covers_endOf hlex) hlex (.inr ⟨rfl, rfl⟩)⟩
  obtain ⟨-, hle, hhi⟩ := hquotes.covers.bounds_le
  rw [Nat.zero_add] at hhi
  exact ⟨span, piece, hquotes, hle, hhi⟩

/-- A number that breaks off at a character of two bytes, behind another such character. -/
theorem ofCanonical?_quotes_brokenNumber :
    ofCanonical? 1 "\"é\" 1.é" = .error (.unknownToken "1.é" ⟨5, 9⟩)
    ∧ ∃ piece, Covers 0 "\"é\" 1.é".toList ⟨5, 9⟩ piece ∧ "1.é" = String.ofList piece := by
  have hlex : Token.lex "\"é\" 1.é" = .error (.unknownToken "1.é" ⟨5, 9⟩) := by decide +kernel
  have herror : ofCanonical? 1 "\"é\" 1.é" = .error (.unknownToken "1.é" ⟨5, 9⟩) := by
    rw [ofCanonical?, hlex]
    rfl
  obtain ⟨span, piece, hquotes, -, -⟩ := ofCanonical?_quotes _ _ _ herror
  obtain rfl : ⟨5, 9⟩ = span := Option.some.inj hquotes.span?
  exact ⟨herror, piece, hquotes.covers, hquotes.quoted _ rfl⟩

end Value

end JsonAxes

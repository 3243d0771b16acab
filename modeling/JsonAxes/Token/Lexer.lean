import JsonAxes.Token.Basic
import JsonAxes.Token.Literal
import JsonAxes.Token.Trivia

/-!
# The lexer

The lexer cuts a text into tokens from front to back. Each step skips white space and comments
and takes one token; an error is yielded once and leaves no text behind, so that nothing
follows it. Every token takes at least one character, hence a text is used up in the end:
`drain` collects all tokens.
-/

set_option autoImplicit false

namespace JsonAxes

/-- The text still to be cut into tokens, and its byte offset in the whole text. -/
structure Lexer where
  offset : Nat
  rest : List Char
  deriving DecidableEq, Repr

namespace Lexer

open Token

/-- A lexer at the front of a text. -/
def ofText (text : String) : Lexer := ⟨0, text.toList⟩

/-- The kind of a token that is a single character. -/
def singleKind (c : Char) : Kind :=
  if c = '\x7b' then .objectOpen
  else if c = '\x7d' then .objectClose
  else if c = '[' then .arrayOpen
  else if c = ']' then .arrayClose
  else if c = ':' then .colon
  else if c = ',' then .comma
  else .unknown

/-- The span of some characters from an offset on. -/
def spanOf (offset : Nat) (cs : List Char) : Span := ⟨offset, offset + Text.utf8Length cs⟩

/-- A token whose text is what it covers, and the lexer behind it. -/
def covering (kind : Kind) (offset : Nat) (taken rest : List Char) : Token × Lexer :=
  let span := spanOf offset taken
  (⟨kind, String.ofList taken, span⟩, ⟨span.hi, rest⟩)

/-- The string whose opening quote stands at an offset, given what follows that quote. -/
def stringToken (offset : Nat) (rest : List Char) : Except ReadError (Token × Lexer) :=
  let (body, ending) := stringBody rest
  let stop := offset + 1 + Text.utf8Length body
  match ending with
  | .closed after => .ok (⟨.string, String.ofList body, ⟨offset, stop + 1⟩⟩, ⟨stop + 1, after⟩)
  | .unterminated => .error (.unterminatedString ⟨offset, stop⟩)
  | .unterminatedEscape => .error (.unterminatedEscape ⟨stop, stop + 1⟩)
  | .malformedEscape escape => .error (.malformedEscape (String.ofList escape) (spanOf stop escape))

/-- The number at an offset. -/
def numberToken (offset : Nat) (cs : List Char) : Except ReadError (Token × Lexer) :=
  match numberExtent cs with
  | .ok (taken, rest) => .ok (covering .number offset taken rest)
  | .error taken => .error (.unknownToken (String.ofList taken) (spanOf offset taken))

/-- The given word at an offset. -/
def wordToken (kind : Kind) (word : String) (offset : Nat) (cs : List Char) :
    Except ReadError (Token × Lexer) :=
  match wordExtent word.toList cs with
  | .ok rest => .ok (covering kind offset word.toList rest)
  | .error taken => .error (.unknownIdentifier (String.ofList taken) (spanOf offset taken))

/-- The token that begins with a character at an offset. -/
def tokenAt (offset : Nat) (c : Char) (rest : List Char) : Except ReadError (Token × Lexer) :=
  if c = '"' then stringToken offset rest
  else if c = '-' ∨ c.isDigit then numberToken offset (c :: rest)
  else if c = 't' then wordToken .bool "true" offset (c :: rest)
  else if c = 'f' then wordToken .bool "false" offset (c :: rest)
  else if c = 'n' then wordToken .null "null" offset (c :: rest)
  else if c = '/' then .error (.unknownToken "/" (spanOf offset ['/']))
  else .ok (covering (singleKind c) offset [c] rest)

/-- The next token or error, if there is one, and the lexer behind it. -/
def next (l : Lexer) : Option (Except ReadError Token) × Lexer :=
  match skipTrivia l.offset l.rest with
  | .error e => (some (.error e), ⟨l.offset, []⟩)
  | .ok (offset, []) => (none, ⟨offset, []⟩)
  | .ok (offset, c :: rest) =>
    match tokenAt offset c rest with
    | .error e => (some (.error e), ⟨offset, []⟩)
    | .ok (token, behind) => (some (.ok token), behind)

/-! ## Every token takes text -/

theorem length_of_stringToken {offset : Nat} {rest : List Char} {t : Token} {l : Lexer}
    (h : stringToken offset rest = .ok (t, l)) : l.rest.length < rest.length := by
  unfold stringToken at h
  cases hb : stringBody rest with
  | mk body ending =>
    simp only [hb] at h
    cases ending <;> cases h
    exact length_lt_of_stringBody rest hb

theorem length_of_numberToken {offset : Nat} {cs : List Char} {t : Token} {l : Lexer}
    (h : numberToken offset cs = .ok (t, l)) : l.rest.length < cs.length := by
  unfold numberToken at h
  split at h
  · next hn => cases h; exact numberExtent_length hn
  · cases h

theorem length_of_wordToken {kind : Kind} {word : String} {offset : Nat} {cs : List Char}
    {t : Token} {l : Lexer} (hw : 0 < word.toList.length)
    (h : wordToken kind word offset cs = .ok (t, l)) : l.rest.length < cs.length := by
  unfold wordToken at h
  split at h
  · next hn =>
    cases h
    have := wordExtent_length hn
    show _ < cs.length
    exact this ▸ Nat.lt_add_of_pos_left hw
  · cases h

theorem length_of_tokenAt {offset : Nat} {c : Char} {rest : List Char} {t : Token} {l : Lexer}
    (h : tokenAt offset c rest = .ok (t, l)) : l.rest.length ≤ rest.length := by
  unfold tokenAt at h
  split at h
  · exact Nat.le_of_lt (length_of_stringToken h)
  · split at h
    · exact Nat.le_of_lt_succ (length_of_numberToken h)
    · repeat' split at h
      · exact Nat.le_of_lt_succ (length_of_wordToken (by decide) h)
      · exact Nat.le_of_lt_succ (length_of_wordToken (by decide) h)
      · exact Nat.le_of_lt_succ (length_of_wordToken (by decide) h)
      · cases h
      · cases h; exact Nat.le_refl _

theorem length_of_next {l l' : Lexer} {t : Token} (h : l.next = (some (.ok t), l')) :
    l'.rest.length < l.rest.length := by
  unfold next at h
  split at h
  · cases h
  · cases h
  · next offset c rest hs =>
    obtain ⟨skipped, hskip⟩ := exists_append_of_skipTrivia hs
    split at h
    · cases h
    · next token behind ht =>
      cases h
      have := length_of_tokenAt ht
      simp only [← hskip, List.length_append, List.length_cons]
      omega

/-! ## All tokens -/

/-- What a lexer yields until it stops: the tokens, the error if it stops with one, and the
lexer that is left. -/
structure Output where
  tokens : List Token
  error? : Option ReadError
  final : Lexer

/-- Runs a lexer to its end. -/
def drain (l : Lexer) : Output :=
  match h : l.next with
  | (none, behind) => ⟨[], none, behind⟩
  | (some (.error e), behind) => ⟨[], some e, behind⟩
  | (some (.ok token), behind) =>
    have := length_of_next h
    let output := drain behind
    ⟨token :: output.tokens, output.error?, output.final⟩
  termination_by l.rest.length

end Lexer

/-- The tokens of a text, or the first error among them. -/
def Token.lex (text : String) : Except ReadError (List Token) :=
  let output := (Lexer.ofText text).drain
  match output.error? with
  | none => .ok output.tokens
  | some e => .error e

end JsonAxes

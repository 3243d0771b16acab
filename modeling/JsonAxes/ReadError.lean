import JsonAxes.Encoding.Basic
import JsonAxes.Span

/-!
# Errors of reading JSON

Reading stops at the first thing that is wrong, and `ReadError` says what it is. All errors but
`badEncoding` carry the span of the canonical text that is to blame; a badly encoded text has
no canonical form, so that error carries an offset into the bytes.
-/

set_option autoImplicit false

namespace JsonAxes

/-- Why some bytes or a text could not be read as a value. -/
inductive ReadError where
  /-- The bytes are not in the encoding they appear to be in. -/
  | badEncoding (encoding : Encoding) (offset : Nat) (flaw : Encoding.Flaw)
  /-- The text is no token. -/
  | unknownToken (text : String) (span : Span)
  /-- The number lies beyond the largest finite one. -/
  | numberOutOfRange (text : String) (span : Span)
  /-- The word is none of the three that stand for values. -/
  | unknownIdentifier (text : String) (span : Span)
  /-- The text ends within a string. -/
  | unterminatedString (span : Span)
  /-- The text ends behind the backslash of an escape. -/
  | unterminatedEscape (span : Span)
  /-- The text behind a backslash is no escape. -/
  | malformedEscape (text : String) (span : Span)
  /-- The text ends within a block comment. -/
  | unterminatedComment (span : Span)
  /-- A value was expected, and something else was found. -/
  | expectedValue (got : String) (span : Span)
  /-- One particular thing was expected, and something else was found. -/
  | expected (wanted got : String) (span : Span)
  /-- A container opened within as many others as are allowed. -/
  | nestingTooDeep (limit : Nat) (span : Span)
  deriving DecidableEq, Repr

namespace ReadError

/-- The wording of an error. -/
def message : ReadError → String
  | badEncoding encoding offset flaw =>
    "input is not valid " ++ encoding.name ++ " at byte " ++ toString offset ++ ": " ++ flaw.reason
  | unknownToken text _ => "unknown token `" ++ text ++ "`"
  | numberOutOfRange text _ => "number `" ++ text ++ "` is out of range"
  | unknownIdentifier text _ =>
    "unknown identifier `" ++ text ++ "`, expected `true`, `false` or `null`"
  | unterminatedString _ => "unterminated string"
  | unterminatedEscape _ => "unterminated escape sequence"
  | malformedEscape text _ => "malformed escape sequence `" ++ text ++ "`"
  | unterminatedComment _ => "unterminated block comment"
  | expectedValue got _ => "unexpected " ++ got ++ ", expected a value"
  | expected wanted got _ => "expected " ++ wanted ++ ", got " ++ got
  | nestingTooDeep limit _ => "nesting deeper than " ++ toString limit ++ " levels"

/-- Where in the canonical text the error lies. -/
def span? : ReadError → Option Span
  | badEncoding .. => none
  | unknownToken _ span => some span
  | numberOutOfRange _ span => some span
  | unknownIdentifier _ span => some span
  | unterminatedString span => some span
  | unterminatedEscape span => some span
  | malformedEscape _ span => some span
  | unterminatedComment span => some span
  | expectedValue _ span => some span
  | expected _ _ span => some span
  | nestingTooDeep _ span => some span

end ReadError

end JsonAxes

import JsonAxes.Span

/-!
# Tokens

A token is a piece of text with its kind and the span it was taken from. The text of a string
token is what stands between its quotes, escapes and all, while its span covers the quotes too;
the text of any other token is what its span covers.
-/

set_option autoImplicit false

namespace JsonAxes

/-- The kinds of tokens. -/
inductive Token.Kind where
  | objectOpen
  | objectClose
  | arrayOpen
  | arrayClose
  | string
  | number
  | colon
  | comma
  | bool
  | null
  /-- A character that begins no token; whoever expects something else will refuse it. -/
  | unknown
  deriving DecidableEq, Repr, Inhabited

/-- The kinds in order of declaration. -/
def Token.Kind.all : List Token.Kind :=
  [.objectOpen, .objectClose, .arrayOpen, .arrayClose, .string, .number, .colon, .comma, .bool,
    .null, .unknown]

/-- What a kind is called in messages. -/
def Token.Kind.description : Token.Kind → String
  | objectOpen => "`\x7b`"
  | objectClose => "`\x7d`"
  | arrayOpen => "`[`"
  | arrayClose => "`]`"
  | string => "string"
  | number => "number"
  | colon => "`:`"
  | comma => "`,`"
  | bool => "boolean"
  | null => "`null`"
  | unknown => "unknown character"

/-- A piece of text that means something. -/
structure Token where
  kind : Token.Kind
  text : String
  span : Span
  deriving DecidableEq, Repr, Inhabited

/-- How a token is quoted in messages. -/
def Token.display (t : Token) : String :=
  match t.kind with
  | .string => "string \"" ++ t.text ++ "\""
  | .number | .bool | .unknown => "`" ++ t.text ++ "`"
  | kind => kind.description

end JsonAxes

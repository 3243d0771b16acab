import JsonAxes.Cli.Run

/-!
# How messages are shown

Messages as lines of text. A report is shown by its place, as line and column, by what is said there
and by what may help; lines end at any of the line terminators of Unicode, columns count characters,
and a terminator at the very end of a text has no line behind it.
-/

set_option autoImplicit false

namespace JsonAxes.Outer

open Cli

/-! ## Places -/

/-- A place in a text as a reader counts it, from one. -/
structure Position where
  line : Nat
  column : Nat
  deriving DecidableEq, Repr

namespace Position

/-- The position of the first character of a text. -/
def start : Position := ⟨1, 1⟩

/-- The characters that end a line: line feed, vertical tab, form feed, carriage return, next line,
line separator and paragraph separator. -/
def terminators : List Char := ['\n', '\x0b', '\x0c', '\x0d', '\u0085', '\u2028', '\u2029']

/-- Whether a line begins behind a character, given what follows it. A carriage return in front of
a line feed leaves it to that to end the line. -/
def endsLine (c : Char) (rest : List Char) : Bool :=
  terminators.contains c && !rest.isEmpty && !(c == '\x0d' && rest.head? == some '\n')

/-- The position behind a character at a position, given what follows the character. -/
def behind (p : Position) (c : Char) (rest : List Char) : Position :=
  if endsLine c rest then ⟨p.line + 1, 1⟩ else ⟨p.line, p.column + 1⟩

/-- The position behind so many characters, from a position on. -/
def walk (p : Position) : Nat → List Char → Position
  | 0, _ => p
  | _, [] => p
  | n + 1, c :: rest => walk (p.behind c rest) n rest

/-- The position of the character with an index in a text, counted from zero. -/
def atIndex (text : String) (index : Nat) : Position := walk start index text.toList

end Position

/-! ## Reports -/

/-- The place that a report points at: the name of the text, the line and the column. There is none
in an empty text. -/
def location? (r : Report) : Option String :=
  if r.text.isEmpty then none
  else r.label?.map fun label =>
    let position := Position.atIndex r.text label.range.1
    r.source ++ ":" ++ toString position.line ++ ":" ++ toString position.column

/-- What may help, line by line. -/
def adviceLines (r : Report) : List String :=
  (r.help?.map ("Help: " ++ ·)).toList ++ (r.note?.map ("Note: " ++ ·)).toList

/-! ## Messages -/

/-- What the message begins with that ends the run, or announces a report. -/
def fatalMark : String := "Error: "

/-- What a message begins with that the program goes on behind. -/
def loggedMark : String := "ERROR "

/-- The control characters below U+0080 that could change how a log looks where it is shown. -/
def logControls : List Char := ['\x07', '\x08', '\x0c', '\x1b', '\x7f']

/-- A character in a log. Control characters that a terminal would obey are spelled out. -/
def logChar (c : Char) : List Char :=
  let digits := [Text.hexDigit (c.toNat / 0x10), Text.hexDigit (c.toNat % 0x10)]
  if logControls.contains c then '\\' :: 'x' :: digits
  else if 0x80 ≤ c.toNat && c.toNat < 0xA0 then ['\\', 'u', '\x7b'] ++ digits ++ ['\x7d']
  else [c]

/-- A message as it is shown. -/
def shown : Message → List String
  | .usage text => [text]
  | .report r => (fatalMark ++ r.headline) :: (location? r).toList
      ++ (r.label?.map fun label => label.message).toList ++ adviceLines r
  | .logged text => [loggedMark ++ String.ofList (text.toList.flatMap logChar)]
  | .fatal text causes => (fatalMark ++ text) :: causes.map ("Caused by: " ++ ·)

end JsonAxes.Outer

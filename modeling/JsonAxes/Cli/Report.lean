import JsonAxes.Path.Error
import JsonAxes.ReadError

/-!
# Reports

A report shows where in a text an error lies, says what it is, and perhaps what may help. How it is
drawn is left to whoever shows it. It points at characters by their indices, while spans are made of
byte offsets.
-/

set_option autoImplicit false

namespace JsonAxes.Cli

/-- The number of characters that begin before a byte offset. -/
def charsBefore (offset : Nat) : List Char → Nat
  | [] => 0
  | c :: rest => if offset = 0 then 0 else charsBefore (offset - c.utf8Size) rest + 1

/-- The index of the first character that a span covers, and the index behind the last one. -/
def charRange (text : String) (span : Span) : Nat × Nat :=
  (charsBefore span.lo text.toList, charsBefore span.hi text.toList)

/-- A place in a text and what is said of it. -/
structure Label where
  /-- The index of the first character and the index behind the last one. -/
  range : Nat × Nat
  message : String
  deriving DecidableEq, Repr

/-- What is shown of an error in a text. -/
structure Report where
  /-- What the text is called. -/
  source : String
  text : String
  headline : String
  label? : Option Label
  help? : Option String
  note? : Option String
  deriving DecidableEq, Repr

namespace Report

/-- The report of an error of reading a canonical text. Such a text is ASCII, so that byte offsets
are indices of characters; an error that lies nowhere is shown at the beginning. -/
def ofReadError (source text : String) (e : ReadError) : Report :=
  let span := e.span?.getD (.point 0)
  { source, text, headline := "failed to parse JSON"
    label? := some ⟨(span.lo, span.hi), e.message⟩, help? := none, note? := none }

/-- What a path's text is called. -/
def pathSource : String := "<path>"

/-- What was perhaps meant instead. -/
def pathHelp? : PathError → Option String
  | .unknownAxis _ _ (some suggestion) => some ("did you mean " ++ suggestion ++ " instead?")
  | _ => none

/-- What there is instead. -/
def pathNote? : PathError → Option String
  | .unknownAxis _ _ none => some ("known axes are: " ++ ", ".intercalate Axis.names)
  | .unsupportedTest .. => some "the only supported node test function is node()"
  | _ => none

/-- The report of an error of reading a path. What is said of a text that does not have the form of
a path, and where, is up to the parser behind `Path.ofText?` and left out. -/
def ofPathError (text : String) (e : PathError) : Report :=
  { source := pathSource, text, headline := "invalid path expression",
    label? := e.span?.map fun span => ⟨charRange text span, e.message⟩,
    help? := pathHelp? e, note? := pathNote? e }

end Report

end JsonAxes.Cli

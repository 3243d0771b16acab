import JsonAxes.Exchange.Text
import JsonAxes.Exchange.Writer
import JsonAxes.Number.Format
import JsonAxes.Text.Units

/-!
# A writer of exchange text

The writer that the program is put together with. Text has no white space in it, and in strings
only those characters are escaped that have to be. Nothing that is proved depends on its
spellings: it is one of the writers that `Exchange.Writer.WritesStandard` describes.
-/

set_option autoImplicit false

namespace JsonAxes.Outer

open Exchange

/-- A character within a string literal. -/
def charText (c : Char) : List Char :=
  if c = '"' then ['\\', '"']
  else if c = '\\' then ['\\', '\\']
  else if c = '\n' then ['\\', 'n']
  else if c = '\r' then ['\\', 'r']
  else if c = '\t' then ['\\', 't']
  else if c = '\x08' then ['\\', 'b']
  else if c = '\x0c' then ['\\', 'f']
  else if c < ' ' then Text.charEscape c
  else [c]

/-- A string literal. -/
def stringText (s : String) : List Char := '"' :: (s.toList.flatMap charText ++ ['"'])

/-- A key and the text of its value. -/
def memberText (key : String) (value : List Char) : List Char := stringText key ++ (':' :: value)

/-- The writer. -/
def writer : Writer (List Char) where
  null := nullText
  bool := boolText
  integer := integerText
  float n := if n.isFinite then NumberFormat.scientific.write n else nullText
  string := stringText
  array := bracketed '[' ']'
  object ms := bracketed '\x7b' '\x7d' (ms.map fun m => memberText m.1 m.2)

end JsonAxes.Outer

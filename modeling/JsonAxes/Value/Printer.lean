import JsonAxes.Number.Format
import JsonAxes.Text.Units
import JsonAxes.Value.Basic
import JsonAxes.Value.Layout

/-!
# Printing values

A value is written as JSON text in a given layout. Numbers are written in full, without exponent;
those that are not finite have no spelling in JSON and are written as `null`.
-/

set_option autoImplicit false

namespace JsonAxes.Layout

/-- A character within a string literal. -/
def charText (l : Layout) (c : Char) : List Char :=
  if c = '"' then ['\\', '"']
  else if c = '\\' then ['\\', '\\']
  else if c = '\n' then ['\\', 'n']
  else if c = '\r' then ['\\', 'r']
  else if c = '\t' then ['\\', 't']
  else if c = '\x08' then ['\\', 'b']
  else if c = '\x0c' then ['\\', 'f']
  else if c < ' ' || c = '\x7f' || (l.asciiOnly && '\x7f' < c) then Text.charEscape c
  else [c]

/-- A string literal. -/
def stringText (l : Layout) (s : String) : List Char :=
  '"' :: (s.toList.flatMap l.charText ++ ['"'])

/-- A number. -/
def numberText (n : Number) : List Char :=
  if n.isFinite then NumberFormat.plain.write n else "null".toList

/-- A line break with the indentation of a level of nesting. Widths are words of 64 bits: one that
does not fit wraps around. -/
def newline (l : Layout) (depth : Nat) : List Char :=
  '\n' :: List.replicate (depth * l.indent % 0x10000000000000000) ' '

/-- What follows a comma or a colon. -/
def gap (l : Layout) (lineBreak : Bool) (depth : Nat) : List Char :=
  if lineBreak then l.newline depth
  else if l.readableSpacing then [' ']
  else []

/-- The line break inside a bracket. -/
def edge (l : Layout) (depth : Nat) : List Char :=
  if l.leadingLineBreak then l.newline depth else []

mutual

/-- A value at a level of nesting. -/
def valueText (l : Layout) (depth : Nat) : Value → List Char
  | .string s => l.stringText s
  | .number n => numberText n
  | .bool b => (if b then "true" else "false").toList
  | .null => "null".toList
  | .array [] => ['[', ']']
  | .array (v :: vs) =>
    '[' :: (l.edge (depth + 1) ++ (l.valueText (depth + 1) v ++ (l.elementsText (depth + 1) vs
      ++ (l.edge depth ++ [']']))))
  | .object [] => ['\x7b', '\x7d']
  | .object ((k, v) :: ms) =>
    '\x7b' :: (l.edge (depth + 1) ++ (l.stringText k ++ (':' ::
      (l.gap l.lineBreakAfterKey (depth + 1) ++ (l.valueText (depth + 1) v
        ++ (l.membersText (depth + 1) ms ++ (l.edge depth ++ ['\x7d'])))))))

/-- The elements behind the first. -/
def elementsText (l : Layout) (depth : Nat) : List Value → List Char
  | [] => []
  | v :: vs =>
    ',' :: (l.gap l.arrayLineBreaks depth ++ (l.valueText depth v ++ l.elementsText depth vs))

/-- The members behind the first. -/
def membersText (l : Layout) (depth : Nat) : List (String × Value) → List Char
  | [] => []
  | (k, v) :: ms =>
    ',' :: (l.gap l.objectLineBreaks depth ++ (l.stringText k ++ (':' ::
      (l.gap l.lineBreakAfterKey depth ++ (l.valueText depth v ++ l.membersText depth ms)))))

end

end JsonAxes.Layout

namespace JsonAxes.Value

/-- A value as text in a layout. -/
def print (v : Value) (l : Layout) : String := String.ofList (l.valueText 0 v)

/-- A value as text in one line. -/
def compact (v : Value) : String := v.print .compact

end JsonAxes.Value

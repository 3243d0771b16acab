/-!
# Layouts

How a value is laid out as text: independent switches for line breaks and spaces, the width of
indentation, and whether characters beyond ASCII are escaped. Without any switch the text is
compact.
-/

set_option autoImplicit false

namespace JsonAxes

/-- How a value is laid out as text. -/
structure Layout where
  /-- Escape all but printable ASCII. -/
  asciiOnly : Bool := false
  /-- A space behind a comma or colon where no line ends. -/
  readableSpacing : Bool := false
  /-- Each element of an array behind the first on a line of its own. -/
  arrayLineBreaks : Bool := false
  /-- Each member of an object behind the first on a line of its own. -/
  objectLineBreaks : Bool := false
  /-- The brackets of a container that is not empty on lines apart from what they enclose. -/
  leadingLineBreak : Bool := false
  /-- A member's value on a line of its own behind its key. -/
  lineBreakAfterKey : Bool := false
  /-- Spaces for each level of nesting at the front of a line. -/
  indent : Nat := 0
  deriving DecidableEq, Repr

/-- The single switches of a layout. -/
inductive Layout.Switch where
  | asciiOnly
  | readableSpacing
  | arrayLineBreaks
  | objectLineBreaks
  | leadingLineBreak
  | lineBreakAfterKey
  deriving DecidableEq, Repr

namespace Layout

/-- Everything in one line, without spaces. -/
def compact : Layout := {}

/-- A line for every bracket, element and member, indented by two spaces. -/
def pretty : Layout :=
  { readableSpacing := true, arrayLineBreaks := true, objectLineBreaks := true,
    leadingLineBreak := true, indent := 2 }

/-- The layout with one more switch turned on. -/
def turnOn (l : Layout) : Switch → Layout
  | .asciiOnly => { l with asciiOnly := true }
  | .readableSpacing => { l with readableSpacing := true }
  | .arrayLineBreaks => { l with arrayLineBreaks := true }
  | .objectLineBreaks => { l with objectLineBreaks := true }
  | .leadingLineBreak => { l with leadingLineBreak := true }
  | .lineBreakAfterKey => { l with lineBreakAfterKey := true }

end Layout

end JsonAxes

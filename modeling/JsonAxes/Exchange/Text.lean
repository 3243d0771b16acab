import JsonAxes.Number.Basic

/-!
# Words and brackets

The pieces of text that the standard leaves no choice about: the three words, integers, and what
stands around and between the elements or members of a container.
-/

set_option autoImplicit false

namespace JsonAxes.Exchange

/-- What stands for null. -/
def nullText : List Char := "null".toList

/-- A truth value. -/
def boolText (b : Bool) : List Char := (if b then "true" else "false").toList

/-- An integer. -/
def integerText (i : Int) : List Char :=
  (if i < 0 then ['-'] else []) ++ Nat.toDigits 10 i.natAbs

/-- Pieces of text with commas between them, in brackets. -/
def bracketed (opening closing : Char) (pieces : List (List Char)) : List Char :=
  opening :: ([','].intercalate pieces ++ [closing])

end JsonAxes.Exchange

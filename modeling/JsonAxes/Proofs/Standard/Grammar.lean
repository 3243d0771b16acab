import JsonAxes.Proofs.Number.Numeral
import JsonAxes.Proofs.Value.Grammar
import JsonAxes.Text.Escape

/-!
# Standard texts

The grammar of the JSON standard, without the liberties of the lexer: a value is a string, a number,
one of three words, an array or an object; white space may stand on either side of a value and of a
structural character. `Standard` is what the text of a value is made of, white space aside: the
parts of its string literals, its numerals, all members of its objects. `Standard.Written x cs` says
that `cs` is a text of `x`, and `Standard.Padded` that it is one with white space on either side.

What a text denotes is a function of this (`Standard.value`): escapes are resolved, two that make up
a pair of surrogates together (`Standard.resolved`), a numeral is rounded to the nearest number
(`Numeral.number`), and of the members with one key the last counts, at the first place.
-/

set_option autoImplicit false

namespace JsonAxes

namespace Standard

/-! ## String literals -/

/-- Four hexadecimal digits. -/
structure Digits where
  a : Char
  b : Char
  c : Char
  d : Char
  isHexDigit_a : Text.isHexDigit a = true
  isHexDigit_b : Text.isHexDigit b = true
  isHexDigit_c : Text.isHexDigit c = true
  isHexDigit_d : Text.isHexDigit d = true

namespace Digits

/-- The digits as they are written. -/
def chars (u : Digits) : List Char := [u.a, u.b, u.c, u.d]

/-- The unit that the digits spell. -/
def unit (u : Digits) : Nat := Text.hexNumber u.chars

end Digits

/-- A part of a string literal. -/
inductive Part where
  /-- A character that stands for itself. -/
  | plain (c : Char) (h : ' ' ≤ c ∧ c ≠ '"' ∧ c ≠ '\\')
  /-- A backslash and the character that stands for another. -/
  | letter (e c : Char) (h : Text.simpleEscape? e = some c)
  /-- A backslash, the letter `u` and four digits. -/
  | unit (u : Digits)

/-- A part as it is written. -/
def Part.text : Part → List Char
  | plain c _ => [c]
  | letter e _ _ => ['\\', e]
  | unit u => '\\' :: 'u' :: u.chars

/-- The parts of a literal one after another. -/
def body (ps : List Part) : List Char := ps.flatMap Part.text

/-- A literal with its quotes. -/
def literal (ps : List Part) : List Char := '"' :: (body ps ++ ['"'])

/-- The character of a code point, or what stands for it if it is no character. -/
def charOf (code : Nat) : Char := (Text.charOfCode? code).getD Text.replacement

/-- Whether two units make up a pair of surrogates. -/
def isPair (u v : Digits) : Bool := Text.isHighSurrogate u.unit && Text.isLowSurrogate v.unit

/-- The text that the parts of a literal stand for. -/
def resolved : List Part → List Char
  | [] => []
  | .plain c _ :: ps => c :: resolved ps
  | .letter _ c _ :: ps => c :: resolved ps
  | .unit u :: .unit v :: ps =>
    if isPair u v then charOf (Text.pairCode u.unit v.unit) :: resolved ps
    else charOf u.unit :: resolved (.unit v :: ps)
  | .unit u :: ps => charOf u.unit :: resolved ps

/-- Whether every surrogate among the parts of a literal is one of a pair. -/
def IsPaired : List Part → Prop
  | [] => True
  | .plain _ _ :: ps => IsPaired ps
  | .letter _ _ _ :: ps => IsPaired ps
  | .unit u :: .unit v :: ps =>
    if isPair u v then IsPaired ps
    else (Text.charOfCode? u.unit).isSome = true ∧ IsPaired (.unit v :: ps)
  | .unit u :: ps => (Text.charOfCode? u.unit).isSome = true ∧ IsPaired ps

end Standard

/-! ## Values -/

/-- What the text of a value is made of. -/
inductive Standard where
  | string (parts : List Standard.Part)
  | number (n : Numeral)
  | bool (b : Bool)
  | null
  | array (elements : List Standard)
  | object (members : List (List Standard.Part × Standard))

namespace Standard

/-- Whether some characters are white space. -/
def IsBlank (cs : List Char) : Prop := ∀ c ∈ cs, c ∈ [' ', '\t', '\n', '\r']

mutual

/-- The texts of a value. -/
inductive Written : Standard → List Char → Prop where
  | string (ps : List Part) : Written (.string ps) (literal ps)
  | number (n : Numeral) (h : n.IsStandard) : Written (.number n) n.text
  | bool (b : Bool) : Written (.bool b) (if b then "true" else "false").toList
  | null : Written .null "null".toList
  | emptyArray {gap : List Char} (h : IsBlank gap) : Written (.array []) ('[' :: (gap ++ [']']))
  | array {x : Standard} {xs : List Standard} {cs more : List Char} (hx : Padded x cs)
      (hxs : WrittenElements xs more) : Written (.array (x :: xs)) ('[' :: (cs ++ (more ++ [']'])))
  | emptyObject {gap : List Char} (h : IsBlank gap) :
      Written (.object []) ('\x7b' :: (gap ++ ['\x7d']))
  | object {key : List Part} {x : Standard} {ms : List (List Part × Standard)}
      {cs more : List Char} (hm : WrittenMember key x cs) (hms : WrittenMembers ms more) :
      Written (.object ((key, x) :: ms)) ('\x7b' :: (cs ++ (more ++ ['\x7d'])))

/-- The texts of a value with white space on either side. -/
inductive Padded : Standard → List Char → Prop where
  | mk {x : Standard} {before cs behind : List Char} (hbefore : IsBlank before) (hx : Written x cs)
      (hbehind : IsBlank behind) : Padded x (before ++ (cs ++ behind))

/-- The texts of the elements behind the first, each with a comma in front. -/
inductive WrittenElements : List Standard → List Char → Prop where
  | nil : WrittenElements [] []
  | cons {x : Standard} {xs : List Standard} {cs more : List Char} (hx : Padded x cs)
      (hxs : WrittenElements xs more) : WrittenElements (x :: xs) (',' :: (cs ++ more))

/-- The texts of a member: a key, a colon, a value. -/
inductive WrittenMember : List Part → Standard → List Char → Prop where
  | mk {key : List Part} {x : Standard} {before behind cs : List Char} (hbefore : IsBlank before)
      (hbehind : IsBlank behind) (hx : Padded x cs) :
      WrittenMember key x (before ++ (literal key ++ (behind ++ ':' :: cs)))

/-- The texts of the members behind the first, each with a comma in front. -/
inductive WrittenMembers : List (List Part × Standard) → List Char → Prop where
  | nil : WrittenMembers [] []
  | cons {key : List Part} {x : Standard} {ms : List (List Part × Standard)}
      {cs more : List Char} (hm : WrittenMember key x cs) (hms : WrittenMembers ms more) :
      WrittenMembers ((key, x) :: ms) (',' :: (cs ++ more))

end

/-! ## What a text denotes -/

/-- The string that a literal stands for. -/
def literalValue (ps : List Part) : String := String.ofList (resolved ps)

mutual

/-- A value with all members of its objects as they come. -/
def listed : Standard → Value
  | .string ps => .string (literalValue ps)
  | .number n => .number n.number
  | .bool b => .bool b
  | .null => .null
  | .array xs => .array (listedElements xs)
  | .object ms => .object (listedMembers ms)

/-- The elements of an array. -/
def listedElements : List Standard → List Value
  | [] => []
  | x :: xs => listed x :: listedElements xs

/-- The members of an object as they come. -/
def listedMembers : List (List Part × Standard) → List (String × Value)
  | [] => []
  | (key, x) :: ms => (literalValue key, listed x) :: listedMembers ms

end

/-- The value that a text denotes. -/
def value (x : Standard) : Value := x.listed.merged

mutual

/-- Whether something holds of all literals and something of all numerals. -/
def All (P : List Part → Prop) (Q : Numeral → Prop) : Standard → Prop
  | .string ps => P ps
  | .number n => Q n
  | .bool _ => True
  | .null => True
  | .array xs => AllElements P Q xs
  | .object ms => AllMembers P Q ms

/-- The same of the elements of an array. -/
def AllElements (P : List Part → Prop) (Q : Numeral → Prop) : List Standard → Prop
  | [] => True
  | x :: xs => All P Q x ∧ AllElements P Q xs

/-- The same of the members of an object and of their keys. -/
def AllMembers (P : List Part → Prop) (Q : Numeral → Prop) : List (List Part × Standard) → Prop
  | [] => True
  | (key, x) :: ms => P key ∧ All P Q x ∧ AllMembers P Q ms

end

/-- Whether all numerals of a value have something. -/
def Numerals (Q : Numeral → Prop) (x : Standard) : Prop := x.All (fun _ => True) Q

/-- Whether every surrogate in a value, spelled by number, is one of a pair. -/
def HasPairs (x : Standard) : Prop := x.All IsPaired fun _ => True

end Standard

end JsonAxes

import JsonAxes.Outer.Number
import JsonAxes.Text.Escape

/-!
# A reader of exchange text

One of the readers that `Exchange.ReadsStandard` describes. A text is read by the letter of the
standard: no comments, no white space but four characters, no control characters in strings, no
escape of a surrogate without its partner. Containers may be nested `nestingLimit` deep. Of a key
that comes more than once the last value counts, at the first place.
-/

set_option autoImplicit false

namespace JsonAxes.Outer

open Exchange

/-- How many containers may be open at once. -/
def nestingLimit : Nat := 127

/-- Whether a character is white space in the standard. -/
def isBlank (c : Char) : Bool := c == ' ' || c == '\n' || c == '\t' || c == '\r'

/-- What follows white space. -/
def skipBlanks (cs : List Char) : List Char := cs.dropWhile isBlank

/-! ## Strings -/

/-- The character of a unit escape, given the unit and what follows it, and the rest of the text.
Surrogates have to come in pairs. -/
def pairedChar? (unit : Nat) (rest : List Char) : Option (Char × List Char) :=
  if Text.isHighSurrogate unit then do
    let (low, rest) ← Text.lowEscape? rest
    let c ← Text.charOfCode? (Text.pairCode unit low)
    return (c, rest)
  else (Text.charOfCode? unit).map fun c => (c, rest)

/-- The character of the escape whose backslash has been taken off, and what follows it. -/
def escape? : List Char → Option (Char × List Char)
  | [] => none
  | 'u' :: rest => (Text.hexUnit? rest).bind fun (unit, rest) => pairedChar? unit rest
  | c :: rest => (Text.simpleEscape? c).map fun d => (d, rest)

theorem length_pairedChar?_le {unit : Nat} {cs rest : List Char} {c : Char}
    (h : pairedChar? unit cs = some (c, rest)) : rest.length ≤ cs.length := by
  unfold pairedChar? at h
  split at h
  · simp only [Option.bind_eq_bind, Option.bind_eq_some_iff, Option.pure_def, Option.some.injEq,
      Prod.mk.injEq, Prod.exists] at h
    obtain ⟨low, behind, hl, _, _, -, rfl⟩ := h
    exact Nat.le_of_lt (Text.length_of_lowEscape? hl)
  · obtain ⟨_, _, he⟩ := Option.map_eq_some_iff.mp h
    cases he
    exact Nat.le_refl _

theorem length_escape? {cs rest : List Char} {c : Char} (h : escape? cs = some (c, rest)) :
    rest.length < cs.length := by
  unfold escape? at h
  split at h
  · cases h
  · obtain ⟨⟨unit, behind⟩, hu, hp⟩ := Option.bind_eq_some_iff.mp h
    have h₁ := Text.length_of_hexUnit? hu
    have h₂ := length_pairedChar?_le hp
    simp
    omega
  · obtain ⟨_, _, he⟩ := Option.map_eq_some_iff.mp h
    cases he
    simp

/-- The characters of the string whose opening quote has been taken off, and what follows it. -/
def stringBody? (cs : List Char) : Option (List Char × List Char) :=
  match cs with
  | [] => none
  | c :: rest =>
    if c = '"' then some ([], rest)
    else if c = '\\' then
      match h : escape? rest with
      | none => none
      | some (d, after) =>
        have := length_escape? h
        (stringBody? after).map fun (body, rest) => (d :: body, rest)
    else if c < ' ' then none
    else (stringBody? rest).map fun (body, rest) => (c :: body, rest)
  termination_by cs.length
  decreasing_by
    · simp only [List.length_cons]
      omega
    · simp only [List.length_cons]
      omega

/-- The string at the front of a text and what follows it. -/
def string? : List Char → Option (String × List Char)
  | '"' :: rest => (stringBody? rest).map fun (body, rest) => (String.ofList body, rest)
  | _ => none

/-! ## Containers -/

/-- What follows a character that has to come next, white space aside. -/
def expect? (c : Char) (cs : List Char) : Option (List Char) :=
  match skipBlanks cs with
  | d :: rest => if d = c then some rest else none
  | [] => none

/-- Items up to the closing bracket, with commas between them, and what follows it. The number
bounds how many there may be. -/
def items? {α : Type} (read : List Char → Option (α × List Char)) (closing : Char) :
    Nat → List Char → Option (List α × List Char)
  | 0, _ => none
  | n + 1, cs =>
    match read cs with
    | none => none
    | some (item, rest) =>
      match expect? ',' rest with
      | some rest => (items? read closing n rest).map fun (items, rest) => (item :: items, rest)
      | none => (expect? closing rest).map fun rest => ([item], rest)

/-- The items of a container whose opening bracket has been taken off, and what follows it. Each
takes up a character of the text, so that there are no more of them than of these. -/
def container? {α : Type} (read : List Char → Option (α × List Char)) (closing : Char)
    (cs : List Char) : Option (List α × List Char) :=
  match expect? closing cs with
  | some rest => some ([], rest)
  | none => items? read closing cs.length cs

/-- A member: a key, a colon, a value. -/
def member? (read : List Char → Option (Exchange × List Char)) (cs : List Char) :
    Option ((String × Exchange) × List Char) :=
  (string? (skipBlanks cs)).bind fun (key, rest) =>
    ((expect? ':' rest).bind read).map fun (y, rest) => ((key, y), rest)

/-! ## Values -/

/-- A word at the front of a text, standing for a value, and what follows it. -/
def word? (word : List Char) (y : Exchange) (cs : List Char) : Option (Exchange × List Char) :=
  if word.isPrefixOf cs then some (y, cs.drop word.length) else none

/-- The value at the front of a text, and what follows it. The number is how many containers may be
open at once. -/
def value? (depth : Nat) (cs : List Char) : Option (Exchange × List Char) :=
  match skipBlanks cs with
  | [] => none
  | c :: rest =>
    if c = '"' then (string? (c :: rest)).map fun (s, rest) => (string s, rest)
    else if c = '[' then
      match depth with
      | 0 => none
      | depth + 1 => (container? (value? depth) ']' rest).map fun (ys, rest) => (array ys, rest)
    else if c = '\x7b' then
      match depth with
      | 0 => none
      | depth + 1 => (container? (member? (value? depth)) '\x7d' rest).map fun (ms, rest) =>
          (object (Members.ofList ms), rest)
    else if c = 't' then word? "true".toList (bool true) (c :: rest)
    else if c = 'f' then word? "false".toList (bool false) (c :: rest)
    else if c = 'n' then word? "null".toList null (c :: rest)
    else number? (c :: rest)

/-- The value that a text spells by the letter of the standard. -/
def reader (text : String) : Option Exchange :=
  (value? nestingLimit text.toList).bind fun (y, rest) =>
    if (skipBlanks rest).isEmpty then some y else none

end JsonAxes.Outer

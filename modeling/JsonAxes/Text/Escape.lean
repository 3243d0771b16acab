import JsonAxes.ReadError
import JsonAxes.Text.Units

/-!
# Resolving escapes

The body of a string literal becomes the text it stands for. Two escapes that spell a surrogate
pair make one character; a surrogate without its partner becomes U+FFFD. A body that comes from
the lexer has only well-formed escapes; one put together by hand may have others, and the first of
them is the error.
-/

set_option autoImplicit false

namespace JsonAxes.Text

/-- What stands for a surrogate without its partner. -/
def replacement : Char := '\uFFFD'

/-- The character that a letter behind a backslash stands for. -/
def simpleEscape? (c : Char) : Option Char :=
  if c = '"' ∨ c = '\\' ∨ c = '/' then some c
  else if c = 'b' then some '\x08'
  else if c = 'f' then some '\x0c'
  else if c = 'n' then some '\n'
  else if c = 'r' then some '\r'
  else if c = 't' then some '\t'
  else none

/-- The second half of a surrogate pair at the front of a text, as an escape, and what follows. -/
def lowEscape? : List Char → Option (Nat × List Char)
  | '\\' :: 'u' :: rest => (hexUnit? rest).filter fun (unit, _) => isLowSurrogate unit
  | _ => none

/-- The number of bytes of a unit escape. -/
def unitEscapeLength : Nat := 6

/-- The character of a unit escape, given the unit and what follows it; the bytes that the escape
takes in all, and the rest of the text. A high surrogate takes the escape of its partner along. -/
def unitChar (unit : Nat) (rest : List Char) : Char × Nat × List Char :=
  if isHighSurrogate unit then
    match lowEscape? rest with
    | some (low, after) =>
      ((charOfCode? (pairCode unit low)).getD replacement, 2 * unitEscapeLength, after)
    | none => (replacement, unitEscapeLength, rest)
  else ((charOfCode? unit).getD replacement, unitEscapeLength, rest)

/-- The shortest front of a text that has at least so many bytes, or all of it. -/
def takeBytes : Nat → List Char → List Char
  | 0, _ => []
  | _, [] => []
  | n + 1, c :: rest => c :: takeBytes (n + 1 - c.utf8Size) rest

/-- The error of a text that begins at an offset with a backslash and no escape; so many bytes of
it are shown. -/
def malformed (offset bytes : Nat) (cs : List Char) : ReadError :=
  let shown := takeBytes bytes cs
  .malformedEscape (String.ofList shown) ⟨offset, offset + utf8Length shown⟩

theorem length_of_lowEscape? {cs rest : List Char} {unit : Nat}
    (h : lowEscape? cs = some (unit, rest)) : rest.length < cs.length := by
  unfold lowEscape? at h
  split at h
  · have h' := (Option.filter_eq_some_iff.mp h).1
    have := length_of_hexUnit? h'
    simp
    omega
  · cases h

theorem length_of_unitChar {unit taken : Nat} {rest left : List Char} {c : Char}
    (h : unitChar unit rest = (c, taken, left)) : left.length ≤ rest.length := by
  have hl : (unitChar unit rest).2.2 = left := by rw [h]
  rw [← hl]
  unfold unitChar
  split
  · split
    · next h => exact Nat.le_of_lt (length_of_lowEscape? h)
    · exact Nat.le_refl _
  · exact Nat.le_refl _

/-- Resolves the escapes of a text that begins at a byte offset. -/
def unescape (offset : Nat) (cs : List Char) : Except ReadError (List Char) :=
  match cs with
  | [] => .ok []
  | c :: rest =>
    if c = '\\' then
      match rest with
      | [] => .error (.unterminatedEscape ⟨offset, offset + 1⟩)
      | e :: rest =>
        if e = 'u' then
          match hu : hexUnit? rest with
          | none => .error (malformed offset unitEscapeLength (c :: e :: rest))
          | some (unit, after) =>
            have := length_of_hexUnit? hu
            match hc : unitChar unit after with
            | (d, taken, left) =>
              have := length_of_unitChar hc
              (unescape (offset + taken) left).map (d :: ·)
        else
          match simpleEscape? e with
          | some d => (unescape (offset + 2) rest).map (d :: ·)
          | none => .error (malformed offset 2 (c :: e :: rest))
    else (unescape (offset + c.utf8Size) rest).map (c :: ·)
  termination_by cs.length
  decreasing_by
    · simp only [List.length_cons]
      omega
    · simp only [List.length_cons]
      omega
    · simp only [List.length_cons]
      omega

end JsonAxes.Text

import JsonAxes.Descent.Outcome
import JsonAxes.Text.Escape
import JsonAxes.Token.Basic

/-!
# Resolving escapes by offsets

The escapes of a text as they are resolved by byte offsets: characters are taken one by one, each
with the offset at which it begins, while the digits of an escape, the second half of a pair and
what an error shows are cut out of the whole text by offset.
-/

set_option autoImplicit false

namespace JsonAxes

namespace Text

/-! ## Pieces between offsets -/

/-- A text cut in two behind so many bytes, if a character ends there. -/
def cut? : Nat → List Char → Option (List Char × List Char)
  | 0, cs => some ([], cs)
  | _ + 1, [] => none
  | n + 1, c :: cs =>
    if c.utf8Size ≤ n + 1 then (cut? (n + 1 - c.utf8Size) cs).map fun p => (c :: p.1, p.2) else none

/-- Whether a character of a text begins at an offset, or the text ends there. -/
def isBoundary (cs : List Char) (offset : Nat) : Bool := (cut? offset cs).isSome

/-- The piece of a text between two offsets, if there is one. -/
def slice? (cs : List Char) (lo hi : Nat) : Option (List Char) :=
  if lo ≤ hi then (cut? lo cs).bind fun p => (cut? (hi - lo) p.2).map Prod.fst else none

end Text

namespace Descent

open Text Outcome

/-- The piece of a text between two offsets. -/
def slice (cs : List Char) (lo hi : Nat) : Outcome (List Char) :=
  match slice? cs lo hi with
  | some piece => pure piece
  | none => fault (.slice lo hi)

/-- The first offset from one on at which no character is cut in two. There is none behind the end
of the text. -/
def roundUp (cs : List Char) (offset : Nat) : Outcome Nat :=
  if isBoundary cs offset then pure offset
  else if offset < utf8Length cs then roundUp cs (offset + 1)
  else fault (.endless offset)
termination_by utf8Length cs - offset

/-- The span of a piece of a text that begins at an offset itself. -/
def spanWithin (base lo hi : Nat) : Outcome Span := do
  let first ← add base lo
  let last ← add base hi
  span first last

/-- The error of a backslash at an offset of a text that begins no escape; so many bytes are shown,
or somewhat more if they end within a character. -/
def malformedAt (raw : List Char) (base offset bytes : Nat) : Outcome ReadError := do
  let last ← roundUp raw (min (offset + bytes) (utf8Length raw))
  let shown ← slice raw offset last
  let place ← spanWithin base offset last
  pure (.malformedEscape (String.ofList shown) place)

/-- The number that four hexadecimal digits at an offset spell. -/
def hexAt? (raw : List Char) (offset : Nat) : Option Nat :=
  ((slice? raw offset (offset + 4)).filter (·.all isHexDigit)).map hexNumber

/-- The second half of a pair behind an escape by number at an offset, if that is the first half. -/
def lowBehind? (raw : List Char) (offset unit : Nat) : Outcome (Option Nat) :=
  if isHighSurrogate unit then do
    let behind ← slice raw (offset + 6) (utf8Length raw)
    if ['\\', 'u'].isPrefixOf behind then pure ((hexAt? raw (offset + 8)).filter isLowSurrogate)
    else pure none
  else pure none

/-- The code point of a pair of surrogates. -/
def codeOfPair (high low : Nat) : Outcome Nat := do
  let upper ← sub high 0xD800
  let lower ← sub low 0xDC00
  pure (0x10000 + upper * 0x400 + lower)

/-- The text that is left of a text at an offset behind so many characters, with its offset. -/
def skip (n offset : Nat) (rest : List Char) : Nat × List Char :=
  (offset + utf8Length (rest.take n), rest.drop n)

/-- Skipping leaves no more than there was. -/
theorem length_skip_le (n offset : Nat) (rest : List Char) :
    (skip n offset rest).2.length ≤ rest.length := by
  rw [skip, List.length_drop]
  exact Nat.sub_le _ _

/-- Resolves the escapes of what is left of a text at an offset; the text begins at an offset
itself, which is called its base. -/
def unescapeFrom (raw : List Char) (base offset : Nat) (rest : List Char) :
    Outcome (List Char) :=
  match rest with
  | [] => pure []
  | c :: rest =>
    if c = '\\' then
      match rest with
      | [] => do
        let place ← spanWithin base offset (utf8Length raw)
        refuse (.unterminatedEscape place)
      | e :: rest =>
        if e = 'u' then
          match hexAt? raw (offset + 2) with
          | none => do
            let error ← malformedAt raw base offset 6
            refuse error
          | some unit => do
            let low? ← lowBehind? raw offset unit
            let p := skip 4 (offset + 2) rest
            match low? with
            | some low => do
              let code ← codeOfPair unit low
              let q := skip 6 p.1 p.2
              let more ← unescapeFrom raw base q.1 q.2
              pure ((charOfCode? code).getD replacement :: more)
            | none => do
              let more ← unescapeFrom raw base p.1 p.2
              pure ((charOfCode? unit).getD replacement :: more)
        else
          match simpleEscape? e with
          | some d => do
            let more ← unescapeFrom raw base (offset + 2) rest
            pure (d :: more)
          | none => do
            let error ← malformedAt raw base offset 2
            refuse error
    else do
      let more ← unescapeFrom raw base (offset + c.utf8Size) rest
      pure (c :: more)
termination_by rest.length
decreasing_by
  · have hp := length_skip_le 4 (offset + 2) rest
    have hq := length_skip_le 6 (skip 4 (offset + 2) rest).1 (skip 4 (offset + 2) rest).2
    simp only [List.length_cons]
    omega
  · have hp := length_skip_le 4 (offset + 2) rest
    simp only [List.length_cons]
    omega
  · simp only [List.length_cons]
    omega
  · simp only [List.length_cons]
    omega

/-- Resolves the escapes of a string token, whose body begins one byte behind the opening quote. -/
def unescape (t : Token) : Outcome String :=
  let raw := t.text.toList
  if '\\' ∈ raw then do
    let base ← add t.span.lo 1
    let text ← unescapeFrom raw base 0 raw
    pure (String.ofList text)
  else pure t.text

end Descent

end JsonAxes

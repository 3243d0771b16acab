import JsonAxes.Encoding.Decode
import JsonAxes.ReadError

/-!
# Canonical text

Before a text is cut into tokens it is put into ASCII. Printable ASCII characters and six
control characters for white space stand as they are; every other character becomes its escape,
`\uXXXX`, or two of them above U+FFFF. A text that is canonical already is left alone.

A character that has to be escaped may not follow a backslash that begins an escape: the result
would read as an escape of the backslash and hide the fault. Whether a backslash begins an escape
depends on the parity of the run of backslashes it ends, so the length of that run is kept
along the way.
-/

set_option autoImplicit false

namespace JsonAxes.Canonical

/-- Whether a character may stand in canonical text. -/
def isCanonical (c : Char) : Bool :=
  (' ' ≤ c && c ≤ '~') || c == '\t' || c == '\n' || c == '\r' || c == '\x08' || c == '\x0b'
    || c == '\x0c'

/-- The canonical form of the rest of a text, given the length of the form so far and the number of
backslashes it ends in. It is ASCII: its length in characters is its length in bytes. -/
def ofCharsFrom (offset backslashes : Nat) : List Char → Except ReadError (List Char)
  | [] => .ok []
  | c :: rest =>
    if isCanonical c then
      (ofCharsFrom (offset + 1) (if c = '\\' then backslashes + 1 else 0) rest).map (c :: ·)
    else
      let size := 6 * (Text.units c).length
      -- an odd run ends in a backslash that begins an escape
      if backslashes % 2 = 1 then
        .error (.malformedEscape (String.ofList ['\\', c]) ⟨offset - 1, offset + size⟩)
      else
        (ofCharsFrom (offset + size) 0 rest).map (Text.charEscape c ++ ·)

/-- The length of the run of backslashes that some characters end in. -/
def endingBackslashes (cs : List Char) : Nat := (cs.reverse.takeWhile (· = '\\')).length

/-- The canonical form of some characters. Canonical characters in front are copied as they are,
and the backslashes that they end in are counted afterwards. -/
def ofChars (cs : List Char) : Except ReadError (List Char) :=
  let front := cs.takeWhile isCanonical
  (ofCharsFrom front.length (endingBackslashes front) (cs.dropWhile isCanonical)).map (front ++ ·)

/-- The canonical form of a text. -/
def ofText (text : String) : Except ReadError String :=
  (ofChars text.toList).map String.ofList

/-- Whether the canonical form of a text is the text itself. -/
def isUnchanged (text : String) : Bool := text.toList.all isCanonical

/-- The canonical form of a text given as bytes. A fault of the encoding is reported after any
objection to the characters in front of it. -/
def ofBytes (bytes : List UInt8) : Except ReadError String :=
  let (encoding, mark) := Encoding.sniff bytes
  let decoded := encoding.decode (bytes.drop mark)
  match ofCharsFrom 0 0 decoded.chars with
  -- the objectionable character stands in front of the fault
  | .error e => .error e
  | .ok cs =>
    match decoded.fault? with
    | none => .ok (String.ofList cs)
    | some (offset, flaw) => .error (.badEncoding encoding (mark + offset) flaw)

end JsonAxes.Canonical

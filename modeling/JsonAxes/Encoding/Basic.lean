/-!
# Encodings of a text

A JSON text arrives as bytes in one of five Unicode encodings. A byte-order mark names the
encoding; without one, the pattern of zero bytes at the front does, because the first two
characters of a JSON text are ASCII.
-/

set_option autoImplicit false

namespace JsonAxes

/-- The encodings in which a JSON text may arrive. -/
inductive Encoding where
  | utf8
  | utf16LE
  | utf16BE
  | utf32LE
  | utf32BE
  deriving DecidableEq, Repr

namespace Encoding

/-- The registered name of an encoding. -/
def name : Encoding → String
  | utf8 => "UTF-8"
  | utf16LE => "UTF-16LE"
  | utf16BE => "UTF-16BE"
  | utf32LE => "UTF-32LE"
  | utf32BE => "UTF-32BE"

/-- What can be wrong with bytes in an encoding. -/
inductive Flaw where
  | invalidSequence
  | truncatedUnit16
  | truncatedUnit32
  | unpairedSurrogate
  | invalidCodePoint
  deriving DecidableEq, Repr

/-- The wording of a flaw. -/
def Flaw.reason : Flaw → String
  | invalidSequence => "invalid UTF-8 sequence"
  | truncatedUnit16 => "truncated UTF-16 code unit"
  | truncatedUnit32 => "truncated UTF-32 code unit"
  | unpairedSurrogate => "unpaired surrogate"
  | invalidCodePoint => "invalid code point"

/-- The encoding of some bytes and the length of the byte-order mark in front of them. The marks
come first, the longer before the shorter; then four bytes decide, and of fewer than four, two. -/
def sniff : List UInt8 → Encoding × Nat
  -- byte-order marks
  | 0xEF :: 0xBB :: 0xBF :: _ => (utf8, 3)
  | 0x00 :: 0x00 :: 0xFE :: 0xFF :: _ => (utf32BE, 4)
  | 0xFF :: 0xFE :: 0x00 :: 0x00 :: _ => (utf32LE, 4)
  | 0xFE :: 0xFF :: _ => (utf16BE, 2)
  | 0xFF :: 0xFE :: _ => (utf16LE, 2)
  -- two ASCII characters, or one in a wide unit
  | 0 :: 0 :: 0 :: _ :: _ => (utf32BE, 0)
  | 0 :: _ :: 0 :: _ :: _ => (utf16BE, 0)
  | _ :: 0 :: 0 :: 0 :: _ => (utf32LE, 0)
  | _ :: 0 :: _ :: 0 :: _ => (utf16LE, 0)
  -- a text of one character
  | 0 :: _ :: _ => (utf16BE, 0)
  | _ :: 0 :: _ => (utf16LE, 0)
  | _ => (utf8, 0)

/-- The encoding that some bytes appear to be in. -/
def detect (bytes : List UInt8) : Encoding := (sniff bytes).1

end Encoding

end JsonAxes

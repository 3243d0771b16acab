import JsonAxes.Encoding.Basic
import JsonAxes.Text.Units

/-!
# Decoding

Bytes become characters in the encoding that was detected. Decoding stops at the first fault and
keeps the characters in front of it, since what reads them may object to one of them first. There
are two exceptions: UTF-8 is checked as a whole before any character is handed on, and so is the
length of a text in wider units.
-/

set_option autoImplicit false

namespace JsonAxes.Encoding

/-- The characters decoded, and the byte offset and nature of the fault that stopped decoding. -/
structure Decoded where
  chars : List Char
  fault? : Option (Nat × Flaw)

namespace Decoded

/-- Everything was decoded. -/
def finished : Decoded := ⟨[], none⟩

/-- Nothing can be decoded from here on. -/
def stopped (offset : Nat) (flaw : Flaw) : Decoded := ⟨[], some (offset, flaw)⟩

/-- One more character in front. -/
def cons (c : Char) (d : Decoded) : Decoded := ⟨c :: d.chars, d.fault?⟩

/-- The characters, unless there is a fault: then only the fault. -/
def allOrNothing (d : Decoded) : Decoded :=
  match d.fault? with
  | none => d
  | some fault => ⟨[], some fault⟩

end Decoded

/-! ## UTF-8 -/

/-- The six bits of a continuation byte. -/
def continuation? (b : UInt8) : Option Nat :=
  if 0x80 ≤ b && b < 0xC0 then some (b.toNat - 0x80) else none

/-- The character of a code point that needs as many bytes as were used to write it. -/
def charFrom? (least code : Nat) : Option Char :=
  if least ≤ code then Text.charOfCode? code else none

/-- The character of two bytes. -/
def char2? (a b : UInt8) : Option Char := do
  let y ← continuation? b
  charFrom? 0x80 ((a.toNat - 0xC0) * 0x40 + y)

/-- The character of three bytes. -/
def char3? (a b c : UInt8) : Option Char := do
  let y ← continuation? b
  let z ← continuation? c
  charFrom? 0x800 ((a.toNat - 0xE0) * 0x1000 + y * 0x40 + z)

/-- The character of four bytes. -/
def char4? (a b c d : UInt8) : Option Char := do
  let x ← continuation? b
  let y ← continuation? c
  let z ← continuation? d
  charFrom? 0x10000 ((a.toNat - 0xF0) * 0x40000 + x * 0x1000 + y * 0x40 + z)

/-- Decodes UTF-8 from a byte offset on. The fault is at the first byte of the first sequence
that is no character. -/
def decodeUtf8 (offset : Nat) : List UInt8 → Decoded
  | [] => .finished
  | a :: rest =>
    let fault := Decoded.stopped offset .invalidSequence
    if a < 0x80 then
      (decodeUtf8 (offset + 1) rest).cons (Char.ofNat a.toNat)
    -- a continuation byte begins nothing
    else if a < 0xC0 then fault
    else if a < 0xE0 then
      match rest with
      | b :: rest =>
        match char2? a b with
        | some c => (decodeUtf8 (offset + 2) rest).cons c
        | none => fault
      | _ => fault
    else if a < 0xF0 then
      match rest with
      | b :: c :: rest =>
        match char3? a b c with
        | some c => (decodeUtf8 (offset + 3) rest).cons c
        | none => fault
      | _ => fault
    else if a < 0xF8 then
      match rest with
      | b :: c :: d :: rest =>
        match char4? a b c d with
        | some c => (decodeUtf8 (offset + 4) rest).cons c
        | none => fault
      | _ => fault
    else fault

/-! ## Wider units -/

/-- The order in which the bytes of a unit are written. -/
inductive ByteOrder where
  | littleEndian
  | bigEndian
  deriving DecidableEq, Repr

/-- The two-byte units of some bytes; a byte left over is dropped. -/
def units16 (order : ByteOrder) : List UInt8 → List Nat
  | a :: b :: rest =>
    let unit := match order with
      | .littleEndian => a.toNat + 0x100 * b.toNat
      | .bigEndian => 0x100 * a.toNat + b.toNat
    unit :: units16 order rest
  | _ => []

/-- The four-byte units of some bytes; bytes left over are dropped. -/
def units32 (order : ByteOrder) : List UInt8 → List Nat
  | a :: b :: c :: d :: rest =>
    let unit := match order with
      | .littleEndian => a.toNat + 0x100 * b.toNat + 0x10000 * c.toNat + 0x1000000 * d.toNat
      | .bigEndian => 0x1000000 * a.toNat + 0x10000 * b.toNat + 0x100 * c.toNat + d.toNat
    unit :: units32 order rest
  | _ => []

/-- The character of a pair of surrogates. -/
def pairChar? (high low : Nat) : Option Char :=
  if Text.isHighSurrogate high && Text.isLowSurrogate low then
    Text.charOfCode? (Text.pairCode high low)
  else none

/-- Decodes UTF-16 units from a byte offset on. A surrogate without its partner is a fault. -/
def decodeUnits16 (offset : Nat) : List Nat → Decoded
  | [] => .finished
  | unit :: rest =>
    let fault := Decoded.stopped offset .unpairedSurrogate
    match Text.charOfCode? unit with
    | some c => (decodeUnits16 (offset + 2) rest).cons c
    | none =>
      match rest with
      | low :: rest =>
        match pairChar? unit low with
        | some c => (decodeUnits16 (offset + 4) rest).cons c
        | none => fault
      | [] => fault

/-- Decodes UTF-32 units from a byte offset on. -/
def decodeUnits32 (offset : Nat) : List Nat → Decoded
  | [] => .finished
  | unit :: rest =>
    match Text.charOfCode? unit with
    | some c => (decodeUnits32 (offset + 4) rest).cons c
    | none => .stopped offset .invalidCodePoint

/-- Decodes UTF-16 bytes of whole units. -/
def decodeUtf16 (order : ByteOrder) (body : List UInt8) : Decoded :=
  if body.length % 2 = 0 then decodeUnits16 0 (units16 order body)
  else .stopped (body.length - 1) .truncatedUnit16

/-- Decodes UTF-32 bytes of whole units. -/
def decodeUtf32 (order : ByteOrder) (body : List UInt8) : Decoded :=
  if body.length % 4 = 0 then decodeUnits32 0 (units32 order body)
  else .stopped (body.length - body.length % 4) .truncatedUnit32

/-- Decodes the bytes behind the byte-order mark. -/
def decode (encoding : Encoding) (body : List UInt8) : Decoded :=
  match encoding with
  | utf8 => (decodeUtf8 0 body).allOrNothing
  | utf16LE => decodeUtf16 .littleEndian body
  | utf16BE => decodeUtf16 .bigEndian body
  | utf32LE => decodeUtf32 .littleEndian body
  | utf32BE => decodeUtf32 .bigEndian body

end JsonAxes.Encoding

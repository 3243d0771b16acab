import JsonAxes.Proofs.Text.Canonical
import JsonAxes.Value.Reader

/-!
# The encodings agree

A text can be written in five encodings, each with its byte-order mark in front or without
(`Encoding.written`). The mark, or else the pattern of zero bytes, tells the encoding again
(`Encoding.sniff_mark_append`, `Encoding.sniff_encode`), as long as the text begins with an ASCII
character that is not NUL, and NUL is not its second character either. Decoding then gives the
characters back (`Encoding.decode_encode`), so reading the bytes is reading the text.
-/

set_option autoImplicit false

namespace JsonAxes.Encoding

/-! ## Writing a text -/

/-- The byte-order mark of an encoding. -/
def mark : Encoding → List UInt8
  | utf8 => [0xEF, 0xBB, 0xBF]
  | utf16LE => [0xFF, 0xFE]
  | utf16BE => [0xFE, 0xFF]
  | utf32LE => [0xFF, 0xFE, 0x00, 0x00]
  | utf32BE => [0x00, 0x00, 0xFE, 0xFF]

/-- The bytes of a two-byte unit. -/
def bytes16 (order : ByteOrder) (unit : Nat) : List UInt8 :=
  let low := UInt8.ofNat (unit % 0x100)
  let high := UInt8.ofNat (unit / 0x100 % 0x100)
  match order with
  | .littleEndian => [low, high]
  | .bigEndian => [high, low]

/-- The bytes of a four-byte unit. -/
def bytes32 (order : ByteOrder) (unit : Nat) : List UInt8 :=
  let low := bytes16 order (unit % 0x10000)
  let high := bytes16 order (unit / 0x10000)
  match order with
  | .littleEndian => low ++ high
  | .bigEndian => high ++ low

/-- The bytes of a character. -/
def charBytes (encoding : Encoding) (c : Char) : List UInt8 :=
  match encoding with
  | utf8 => String.utf8EncodeChar c
  | utf16LE => (Text.units c).flatMap (bytes16 .littleEndian)
  | utf16BE => (Text.units c).flatMap (bytes16 .bigEndian)
  | utf32LE => bytes32 .littleEndian c.toNat
  | utf32BE => bytes32 .bigEndian c.toNat

/-- The bytes of some characters. -/
def encode (encoding : Encoding) (cs : List Char) : List UInt8 := cs.flatMap encoding.charBytes

/-- The bytes of a text, with the byte-order mark in front or without. -/
def written (encoding : Encoding) (marked : Bool) (text : String) : List UInt8 :=
  (if marked then encoding.mark else []) ++ encoding.encode text.toList

theorem encode_cons (encoding : Encoding) (c : Char) (cs : List Char) :
    encoding.encode (c :: cs) = encoding.charBytes c ++ encoding.encode cs := List.flatMap_cons

/-! ## One character after another -/

/-- If what is written for one character is read as that character, whatever stands behind it, then
what is written for many is read as all of them. An offset counts bytes, of which each item takes
`size`. -/
theorem decoded_append {α : Type} {read : Nat → List α → Decoded} {f : Char → List α} {size : Nat}
    (hchar : ∀ c offset rest,
      read offset (f c ++ rest) = (read (offset + size * (f c).length) rest).cons c)
    (cs : List Char) (offset : Nat) (rest : List α) :
    read offset (cs.flatMap f ++ rest)
      = ⟨cs ++ (read (offset + size * (cs.flatMap f).length) rest).chars,
        (read (offset + size * (cs.flatMap f).length) rest).fault?⟩ := by
  induction cs generalizing offset with
  | nil => rfl
  | cons c cs ih =>
      rw [List.flatMap_cons, List.append_assoc, hchar, ih, Decoded.cons, List.length_append,
        Nat.mul_add, ← Nat.add_assoc]
      rfl

theorem decoded_flatMap {α : Type} {read : Nat → List α → Decoded} {f : Char → List α}
    {size : Nat} (hnil : ∀ offset, read offset [] = ⟨[], none⟩)
    (hchar : ∀ c offset rest,
      read offset (f c ++ rest) = (read (offset + size * (f c).length) rest).cons c)
    (cs : List Char) (offset : Nat) : read offset (cs.flatMap f) = ⟨cs, none⟩ := by
  have happend := decoded_append hchar cs offset []
  rwa [List.append_nil, hnil, List.append_nil] at happend

/-! ## UTF-8 -/

theorem toNat_ofNat_of_lt {n : Nat} (h : n < 0x100) : (UInt8.ofNat n).toNat = n :=
  UInt8.toNat_ofNat_of_lt' h

theorem ofNat_lt_iff {n : Nat} (h : n < 0x100) (b : UInt8) : UInt8.ofNat n < b ↔ n < b.toNat := by
  rw [UInt8.lt_iff_toNat_lt, toNat_ofNat_of_lt h]

theorem continuation?_ofNat {n : Nat} (h : n < 0x40) :
    continuation? (.ofNat (n + 0x80)) = some n := by
  have hbyte : (UInt8.ofNat (n + 0x80)).toNat = n + 0x80 := toNat_ofNat_of_lt (by omega)
  have hlow : (0x80 : UInt8) ≤ .ofNat (n + 0x80) := by
    rw [UInt8.le_iff_toNat_le, hbyte]
    exact Nat.le_add_left _ _
  have hhigh : UInt8.ofNat (n + 0x80) < 0xC0 := by
    rw [UInt8.lt_iff_toNat_lt, hbyte]
    show n + 0x80 < 0xC0
    omega
  rw [continuation?, decide_eq_true hlow, decide_eq_true hhigh, hbyte]
  exact congrArg some (Nat.add_sub_cancel n 0x80)

theorem charFrom?_toNat {least : Nat} {c : Char} (h : least ≤ c.toNat) :
    charFrom? least c.toNat = some c := by
  rw [charFrom?, if_pos h, Text.charOfCode?_toNat]

theorem char2?_utf8 {c : Char} (hlow : 0x80 ≤ c.toNat) (hhigh : c.toNat < 0x800) :
    char2? (.ofNat (c.toNat / 64 % 32 + 192)) (.ofNat (c.toNat % 64 + 128)) = some c := by
  have hcode : (c.toNat / 64 % 32 + 192 - 0xC0) * 0x40 + c.toNat % 64 = c.toNat := by omega
  rw [char2?, continuation?_ofNat (by omega), toNat_ofNat_of_lt (by omega), Option.bind_eq_bind,
    Option.bind_some, hcode, charFrom?_toNat hlow]

theorem char3?_utf8 {c : Char} (hlow : 0x800 ≤ c.toNat) (hhigh : c.toNat < 0x10000) :
    char3? (.ofNat (c.toNat / 4096 % 16 + 224)) (.ofNat (c.toNat / 64 % 64 + 128))
      (.ofNat (c.toNat % 64 + 128)) = some c := by
  have hcode : (c.toNat / 4096 % 16 + 224 - 0xE0) * 0x1000 + c.toNat / 64 % 64 * 0x40
      + c.toNat % 64 = c.toNat := by omega
  rw [char3?, continuation?_ofNat (by omega), continuation?_ofNat (by omega),
    toNat_ofNat_of_lt (by omega), Option.bind_eq_bind, Option.bind_some, Option.bind_some, hcode,
    charFrom?_toNat hlow]

theorem char4?_utf8 {c : Char} (hlow : 0x10000 ≤ c.toNat) :
    char4? (.ofNat (c.toNat / 262144 % 8 + 240)) (.ofNat (c.toNat / 4096 % 64 + 128))
      (.ofNat (c.toNat / 64 % 64 + 128)) (.ofNat (c.toNat % 64 + 128)) = some c := by
  have hhigh : c.toNat < 0x110000 := by
    rcases Text.toNat_lt_or_lt c with h | h <;> omega
  have hcode : (c.toNat / 262144 % 8 + 240 - 0xF0) * 0x40000 + c.toNat / 4096 % 64 * 0x1000
      + c.toNat / 64 % 64 * 0x40 + c.toNat % 64 = c.toNat := by omega
  rw [char4?, continuation?_ofNat (by omega), continuation?_ofNat (by omega),
    continuation?_ofNat (by omega), toNat_ofNat_of_lt (by omega), Option.bind_eq_bind,
    Option.bind_some, Option.bind_some, Option.bind_some, hcode, charFrom?_toNat hlow]

section Lead

variable {lead : Nat} {b c d : UInt8} {ch : Char}

theorem decodeUtf8_one (hlead : lead < 0x80) (offset : Nat) (rest : List UInt8) :
    decodeUtf8 offset (.ofNat lead :: rest)
      = (decodeUtf8 (offset + 1) rest).cons (Char.ofNat lead) := by
  have hbyte : lead < 0x100 := by omega
  rw [decodeUtf8.eq_def]
  simp only [ofNat_lt_iff hbyte, UInt8.reduceToNat]
  rw [if_pos hlead, toNat_ofNat_of_lt hbyte]

theorem decodeUtf8_two (hlow : 0xC0 ≤ lead) (hhigh : lead < 0xE0)
    (h : char2? (.ofNat lead) b = some ch) (offset : Nat) (rest : List UInt8) :
    decodeUtf8 offset (.ofNat lead :: b :: rest) = (decodeUtf8 (offset + 2) rest).cons ch := by
  have hbyte : lead < 0x100 := by omega
  rw [decodeUtf8.eq_def]
  simp only [ofNat_lt_iff hbyte, UInt8.reduceToNat]
  rw [if_neg (by omega), if_neg (by omega), if_pos hhigh, h]

theorem decodeUtf8_three (hlow : 0xE0 ≤ lead) (hhigh : lead < 0xF0)
    (h : char3? (.ofNat lead) b c = some ch) (offset : Nat) (rest : List UInt8) :
    decodeUtf8 offset (.ofNat lead :: b :: c :: rest)
      = (decodeUtf8 (offset + 3) rest).cons ch := by
  have hbyte : lead < 0x100 := by omega
  rw [decodeUtf8.eq_def]
  simp only [ofNat_lt_iff hbyte, UInt8.reduceToNat]
  rw [if_neg (by omega), if_neg (by omega), if_neg (by omega), if_pos hhigh, h]

theorem decodeUtf8_four (hlow : 0xF0 ≤ lead) (hhigh : lead < 0xF8)
    (h : char4? (.ofNat lead) b c d = some ch) (offset : Nat) (rest : List UInt8) :
    decodeUtf8 offset (.ofNat lead :: b :: c :: d :: rest)
      = (decodeUtf8 (offset + 4) rest).cons ch := by
  have hbyte : lead < 0x100 := by omega
  rw [decodeUtf8.eq_def]
  simp only [ofNat_lt_iff hbyte, UInt8.reduceToNat]
  rw [if_neg (by omega), if_neg (by omega), if_neg (by omega), if_neg (by omega), if_pos hhigh, h]

end Lead

/-- The bytes of a character are decoded to it, whatever stands behind them. -/
theorem decodeUtf8_append (c : Char) (offset : Nat) (rest : List UInt8) :
    decodeUtf8 offset (String.utf8EncodeChar c ++ rest)
      = (decodeUtf8 (offset + 1 * (String.utf8EncodeChar c).length) rest).cons c := by
  have hval : c.val.toNat = c.toNat := rfl
  rw [Nat.one_mul]
  simp only [String.utf8EncodeChar, hval]
  by_cases hone : c.toNat ≤ 0x7F
  · rw [if_pos hone]
    have hlead : c.toNat < 0x80 := by omega
    have hdecoded := decodeUtf8_one hlead offset rest
    rwa [Char.ofNat_toNat] at hdecoded
  rw [if_neg hone]
  by_cases htwo : c.toNat ≤ 0x7FF
  · rw [if_pos htwo]
    exact decodeUtf8_two (by omega) (by omega) (char2?_utf8 (by omega) (by omega)) offset rest
  rw [if_neg htwo]
  by_cases hthree : c.toNat ≤ 0xFFFF
  · rw [if_pos hthree]
    exact decodeUtf8_three (by omega) (by omega) (char3?_utf8 (by omega) (by omega)) offset rest
  rw [if_neg hthree]
  exact decodeUtf8_four (by omega) (by omega) (char4?_utf8 (by omega)) offset rest

theorem decodeUtf8_flatMap (cs : List Char) (offset : Nat) :
    decodeUtf8 offset (cs.flatMap String.utf8EncodeChar) = ⟨cs, none⟩ :=
  decoded_flatMap (fun _ => rfl) decodeUtf8_append cs offset

/-! ## Units -/

theorem length_flatMap_of_length {f : Nat → List UInt8} {n : Nat} (h : ∀ unit, (f unit).length = n)
    (us : List Nat) : (us.flatMap f).length = n * us.length := by
  induction us with
  | nil => rfl
  | cons unit us ih =>
      rw [List.flatMap_cons, List.length_append, h, ih, List.length_cons, Nat.mul_succ,
        Nat.add_comm]

theorem eq_of_flatMap {read : List UInt8 → List Nat} {f : Nat → List UInt8} {us : List Nat}
    (hnil : read [] = [])
    (h : ∀ unit ∈ us, ∀ rest, read (f unit ++ rest) = unit :: read rest) :
    read (us.flatMap f) = us := by
  induction us with
  | nil => exact hnil
  | cons unit us ih =>
      rw [List.flatMap_cons, h unit List.mem_cons_self,
        ih fun u hu => h u (List.mem_cons_of_mem unit hu)]

/-! ## UTF-16 -/

theorem toNat_byte (n : Nat) : (UInt8.ofNat (n % 0x100)).toNat = n % 0x100 :=
  toNat_ofNat_of_lt (Nat.mod_lt n (by decide))

theorem units16_append (order : ByteOrder) {unit : Nat} (h : unit < 0x10000) (rest : List UInt8) :
    units16 order (bytes16 order unit ++ rest) = unit :: units16 order rest := by
  cases order with
  | littleEndian =>
      have hunit : unit % 0x100 + 0x100 * (unit / 0x100 % 0x100) = unit := by omega
      simp only [bytes16, List.cons_append, List.nil_append, units16, toNat_byte, hunit]
  | bigEndian =>
      have hunit : 0x100 * (unit / 0x100 % 0x100) + unit % 0x100 = unit := by omega
      simp only [bytes16, List.cons_append, List.nil_append, units16, toNat_byte, hunit]

theorem length_bytes16 (order : ByteOrder) (unit : Nat) : (bytes16 order unit).length = 2 := by
  cases order <;> rfl

theorem lt_of_mem_units {c : Char} {unit : Nat} (h : unit ∈ Text.units c) : unit < 0x10000 := by
  by_cases hc : c.toNat < 0x10000
  · rw [Text.units, if_pos hc, List.mem_singleton] at h
    exact h ▸ hc
  · obtain ⟨high, low, hunits, hhigh, hlow, -⟩ := Text.exists_pair_of_le (Nat.not_lt.mp hc)
    rw [hunits, List.mem_cons, List.mem_singleton] at h
    rcases h with rfl | rfl
    · exact Text.lt_of_isHighSurrogate hhigh
    · exact Text.lt_of_isLowSurrogate hlow

theorem decodeUnits16_single {c : Char} {unit : Nat} (h : Text.charOfCode? unit = some c)
    (offset : Nat) (rest : List Nat) :
    decodeUnits16 offset (unit :: rest) = (decodeUnits16 (offset + 2) rest).cons c := by
  rw [decodeUnits16.eq_def]
  simp only [h]

theorem decodeUnits16_pair {c : Char} {high low : Nat} (hhigh : Text.isHighSurrogate high = true)
    (hlow : Text.isLowSurrogate low = true) (hcode : Text.pairCode high low = c.toNat)
    (offset : Nat) (rest : List Nat) :
    decodeUnits16 offset (high :: low :: rest) = (decodeUnits16 (offset + 4) rest).cons c := by
  have hpair : pairChar? high low = some c := by
    rw [pairChar?, hhigh, hlow, Bool.and_self, if_pos rfl, hcode, Text.charOfCode?_toNat]
  rw [decodeUnits16.eq_def]
  simp only [Text.charOfCode?_of_isHighSurrogate hhigh, hpair]

/-- The units of a character are decoded to it, whatever stands behind them. -/
theorem decodeUnits16_append (c : Char) (offset : Nat) (rest : List Nat) :
    decodeUnits16 offset (Text.units c ++ rest)
      = (decodeUnits16 (offset + 2 * (Text.units c).length) rest).cons c := by
  by_cases hc : c.toNat < 0x10000
  · have hunits : Text.units c = [c.toNat] := if_pos hc
    rw [hunits]
    exact decodeUnits16_single (Text.charOfCode?_toNat c) offset rest
  · obtain ⟨high, low, hunits, hhigh, hlow, hcode⟩ := Text.exists_pair_of_le (Nat.not_lt.mp hc)
    rw [hunits]
    exact decodeUnits16_pair hhigh hlow hcode offset rest

theorem decodeUnits16_flatMap (cs : List Char) (offset : Nat) :
    decodeUnits16 offset (cs.flatMap Text.units) = ⟨cs, none⟩ :=
  decoded_flatMap (fun _ => rfl) decodeUnits16_append cs offset

theorem units16_flatMap (order : ByteOrder) (cs : List Char) :
    units16 order (cs.flatMap fun c => (Text.units c).flatMap (bytes16 order))
      = cs.flatMap Text.units := by
  rw [← List.flatMap_assoc]
  refine eq_of_flatMap rfl fun unit hunit rest => ?_
  obtain ⟨c, -, hc⟩ := List.mem_flatMap.mp hunit
  exact units16_append order (lt_of_mem_units hc) rest

theorem decodeUtf16_flatMap (order : ByteOrder) (cs : List Char) :
    decodeUtf16 order (cs.flatMap fun c => (Text.units c).flatMap (bytes16 order))
      = ⟨cs, none⟩ := by
  have hlength : (cs.flatMap fun c => (Text.units c).flatMap (bytes16 order)).length % 2 = 0 := by
    rw [← List.flatMap_assoc, length_flatMap_of_length (length_bytes16 order)]
    exact Nat.mul_mod_right 2 _
  rw [decodeUtf16, if_pos hlength, units16_flatMap, decodeUnits16_flatMap]

/-! ## UTF-32 -/

theorem units32_append (order : ByteOrder) {unit : Nat} (h : unit < 0x100000000)
    (rest : List UInt8) :
    units32 order (bytes32 order unit ++ rest) = unit :: units32 order rest := by
  have hmod : unit % 0x10000 / 0x100 % 0x100 = unit / 0x100 % 0x100 := by omega
  cases order with
  | littleEndian =>
      simp only [bytes32, bytes16, List.cons_append, List.nil_append, units32, toNat_byte]
      congr 1
      omega
  | bigEndian =>
      simp only [bytes32, bytes16, List.cons_append, List.nil_append, units32, toNat_byte]
      congr 1
      omega

theorem length_bytes32 (order : ByteOrder) (unit : Nat) : (bytes32 order unit).length = 4 := by
  cases order <;> rfl

theorem decodeUnits32_append (c : Char) (offset : Nat) (rest : List Nat) :
    decodeUnits32 offset ([c.toNat] ++ rest)
      = (decodeUnits32 (offset + 4 * [c.toNat].length) rest).cons c := by
  rw [List.singleton_append, decodeUnits32, Text.charOfCode?_toNat]
  rfl

theorem decodeUnits32_map (cs : List Char) (offset : Nat) :
    decodeUnits32 offset (cs.map Char.toNat) = ⟨cs, none⟩ := by
  rw [List.map_eq_flatMap]
  exact decoded_flatMap (fun _ => rfl) decodeUnits32_append cs offset

theorem decodeUtf32_flatMap (order : ByteOrder) (cs : List Char) :
    decodeUtf32 order (cs.flatMap fun c => bytes32 order c.toNat) = ⟨cs, none⟩ := by
  have hlt : ∀ unit ∈ cs.map Char.toNat, unit < 0x100000000 := by
    intro unit hunit
    obtain ⟨c, -, rfl⟩ := List.mem_map.mp hunit
    rcases Text.toNat_lt_or_lt c with h | ⟨-, h⟩ <;> omega
  have hunits : units32 order ((cs.map Char.toNat).flatMap (bytes32 order)) = cs.map Char.toNat :=
    eq_of_flatMap rfl fun unit hunit rest => units32_append order (hlt unit hunit) rest
  have hmap : (cs.flatMap fun c => bytes32 order c.toNat)
      = (cs.map Char.toNat).flatMap (bytes32 order) := by rw [List.flatMap_map]
  rw [hmap, decodeUtf32, length_flatMap_of_length (length_bytes32 order),
    if_pos (Nat.mul_mod_right 4 _), hunits, decodeUnits32_map]

/-- What is written in an encoding is decoded again, whole. -/
theorem decode_encode (encoding : Encoding) (cs : List Char) :
    encoding.decode (encoding.encode cs) = ⟨cs, none⟩ := by
  cases encoding with
  | utf8 =>
      have hdecoded := decodeUtf8_flatMap cs 0
      show (decodeUtf8 0 (cs.flatMap String.utf8EncodeChar)).allOrNothing = _
      rw [hdecoded]
      rfl
  | utf16LE => exact decodeUtf16_flatMap .littleEndian cs
  | utf16BE => exact decodeUtf16_flatMap .bigEndian cs
  | utf32LE => exact decodeUtf32_flatMap .littleEndian cs
  | utf32BE => exact decodeUtf32_flatMap .bigEndian cs

/-! ## Telling the encoding -/

/-- Only NUL is written in UTF-8 with a zero byte in front. -/
theorem head?_of_encode_utf8 {cs : List Char} {tail : List UInt8}
    (h : utf8.encode cs = 0 :: tail) : cs.head? = some '\x00' := by
  have hdecoded : decodeUtf8 0 (0 :: tail) = ⟨cs, none⟩ := by
    rw [← h]
    exact decodeUtf8_flatMap cs 0
  have hzero : decodeUtf8 0 (0 :: tail) = (decodeUtf8 1 tail).cons '\x00' :=
    decodeUtf8_one (by decide) 0 tail
  rw [hzero] at hdecoded
  exact congrArg (·.chars.head?) hdecoded.symm

/-- Only NUL is written in UTF-16 with two zero bytes in front. -/
theorem head?_of_encode_utf16LE {cs : List Char} {tail : List UInt8}
    (h : utf16LE.encode cs = 0 :: 0 :: tail) : cs.head? = some '\x00' := by
  have hunits : units16 .littleEndian (0 :: 0 :: tail) = cs.flatMap Text.units := by
    rw [← h]
    exact units16_flatMap .littleEndian cs
  have hdecoded : decodeUnits16 0 (0 :: units16 .littleEndian tail) = ⟨cs, none⟩ := by
    rw [← decodeUnits16_flatMap cs 0, ← hunits]
    rfl
  have hnul : Text.charOfCode? 0 = some '\x00' := rfl
  rw [decodeUnits16_single hnul] at hdecoded
  exact congrArg (·.chars.head?) hdecoded.symm

theorem sniff_mark_append (encoding : Encoding) {cs : List Char} (h : cs.head? ≠ some '\x00') :
    sniff (encoding.mark ++ encoding.encode cs) = (encoding, encoding.mark.length) := by
  cases encoding with
  | utf8 => rfl
  | utf16BE => rfl
  | utf32LE => rfl
  | utf32BE => rfl
  | utf16LE =>
      -- the one mark that begins another
      have hrest : ∀ tail, utf16LE.encode cs ≠ 0 :: 0 :: tail :=
        fun tail htail => h (head?_of_encode_utf16LE htail)
      show sniff (0xFF :: 0xFE :: utf16LE.encode cs) = (utf16LE, 2)
      unfold sniff
      split <;> grind

/-- Whether zero bytes stand around the byte of an ASCII character as they do in an encoding. -/
inductive Surrounds (a : UInt8) : Encoding → List UInt8 → Prop where
  | utf8 {rest : List UInt8} (h : ∀ tail, rest ≠ 0 :: tail) : Surrounds a utf8 (a :: rest)
  | utf16LE {rest : List UInt8} (h : ∀ tail, rest ≠ 0 :: 0 :: tail) :
    Surrounds a utf16LE (a :: 0 :: rest)
  | utf16BE (rest : List UInt8) : Surrounds a utf16BE (0 :: a :: rest)
  | utf32LE (rest : List UInt8) : Surrounds a utf32LE (a :: 0 :: 0 :: 0 :: rest)
  | utf32BE (rest : List UInt8) : Surrounds a utf32BE (0 :: 0 :: 0 :: a :: rest)

/-- Without a mark the zero bytes tell the encoding. -/
theorem Surrounds.sniff_eq {a : UInt8} {encoding : Encoding} {bytes : List UInt8}
    (h : Surrounds a encoding bytes) (hpos : a ≠ 0) (hlt : a < 0x80) :
    sniff bytes = (encoding, 0) := by
  cases h <;> (unfold sniff; split <;> grind)

/-- Two characters in front tell the encoding without a mark, the first of them ASCII and neither of
them NUL. -/
theorem sniff_encode (encoding : Encoding) {c : Char} {cs : List Char} (hpos : c.toNat ≠ 0)
    (hlt : c.toNat < 0x80) (h : cs.head? ≠ some '\x00') :
    sniff (encoding.encode (c :: cs)) = (encoding, 0) := by
  obtain ⟨a, ha⟩ : ∃ a, a = UInt8.ofNat c.toNat := ⟨_, rfl⟩
  have hbyte : a.toNat = c.toNat := ha ▸ toNat_ofNat_of_lt (by omega)
  suffices hsurrounds : Surrounds a encoding (encoding.encode (c :: cs)) by
    refine hsurrounds.sniff_eq ?_ ?_
    · rintro rfl
      exact hpos hbyte.symm
    · rw [UInt8.lt_iff_toNat_lt, hbyte]
      exact hlt
  have hunits : Text.units c = [c.toNat] := if_pos (by omega)
  have hlow : c.toNat % 0x100 = c.toNat := Nat.mod_eq_of_lt (by omega)
  have hhigh : c.toNat / 0x100 = 0 := Nat.div_eq_of_lt (by omega)
  have h32 : c.toNat / 0x10000 = 0 := Nat.div_eq_of_lt (by omega)
  have h32' : c.toNat % 0x10000 = c.toNat := Nat.mod_eq_of_lt (by omega)
  rw [encode_cons]
  cases encoding with
  | utf8 =>
      have hone : String.utf8EncodeChar c = [a] := by
        rw [ha]
        exact if_pos (Nat.le_of_lt_succ hlt)
      show Surrounds a utf8 (String.utf8EncodeChar c ++ utf8.encode cs)
      rw [hone]
      exact .utf8 fun tail htail => h (head?_of_encode_utf8 htail)
  | utf16LE =>
      have hbytes : utf16LE.charBytes c = [a, 0] := by
        simp only [charBytes, hunits, List.flatMap_singleton, bytes16, hlow, hhigh, ← ha]
        rfl
      rw [hbytes]
      exact .utf16LE fun tail htail => h (head?_of_encode_utf16LE htail)
  | utf16BE =>
      have hbytes : utf16BE.charBytes c = [0, a] := by
        simp only [charBytes, hunits, List.flatMap_singleton, bytes16, hlow, hhigh, ← ha]
        rfl
      rw [hbytes]
      exact .utf16BE _
  | utf32LE =>
      have hbytes : utf32LE.charBytes c = [a, 0, 0, 0] := by
        simp only [charBytes, bytes32, bytes16, h32, h32', hlow, hhigh, ← ha]
        rfl
      rw [hbytes]
      exact .utf32LE _
  | utf32BE =>
      have hbytes : utf32BE.charBytes c = [0, 0, 0, a] := by
        simp only [charBytes, bytes32, bytes16, h32, h32', hlow, hhigh, ← ha]
        rfl
      rw [hbytes]
      exact .utf32BE _

/-! ## Reading what is written -/

/-- What is written is taken for what it is; of no bytes at all the encoding makes no difference. -/
theorem decode_sniff_written (encoding : Encoding) (marked : Bool) (text : String)
    (hfirst : ∀ c, text.toList[0]? = some c → 1 ≤ c.toNat ∧ c.toNat ≤ 0x7F)
    (hsecond : ∀ c, text.toList[1]? = some c → c ≠ '\x00') :
    (sniff (encoding.written marked text)).1.decode
        ((encoding.written marked text).drop (sniff (encoding.written marked text)).2)
      = ⟨text.toList, none⟩ := by
  unfold written
  generalize text.toList = cs at hfirst hsecond ⊢
  have hhead : cs.head? ≠ some '\x00' := by
    intro hnul
    rw [List.head?_eq_getElem?] at hnul
    exact absurd (hfirst _ hnul).1 (by decide)
  cases marked with
  | true =>
      rw [if_pos rfl, sniff_mark_append encoding hhead, List.drop_left]
      exact decode_encode encoding cs
  | false =>
      rw [if_neg Bool.false_ne_true, List.nil_append]
      cases cs with
      | nil => rfl
      | cons c cs =>
          have hc := hfirst c rfl
          have hnext : cs.head? ≠ some '\x00' := by
            intro hnul
            rw [List.head?_eq_getElem?] at hnul
            exact hsecond _ hnul rfl
          rw [sniff_encode encoding (by omega) (by omega) hnext, List.drop_zero]
          exact decode_encode encoding (c :: cs)

/-- A text is read alike in every encoding, with a byte-order mark or without, and as it is. -/
theorem ofBytes_written (encoding : Encoding) (marked : Bool) (text : String)
    (hfirst : ∀ c, text.toList[0]? = some c → 1 ≤ c.toNat ∧ c.toNat ≤ 0x7F)
    (hsecond : ∀ c, text.toList[1]? = some c → c ≠ '\x00') :
    Canonical.ofBytes (encoding.written marked text) = Canonical.ofText text
    ∧ ∀ limit, Value.ofBytes? limit (encoding.written marked text) = Value.ofText? limit text := by
  have hcanonical : Canonical.ofBytes (encoding.written marked text) = Canonical.ofText text := by
    simp only [Canonical.ofBytes, decode_sniff_written encoding marked text hfirst hsecond]
    rw [Canonical.ofText, Canonical.ofChars_eq]
    cases Canonical.ofCharsFrom 0 0 text.toList <;> rfl
  refine ⟨hcanonical, fun limit => ?_⟩
  rw [Value.ofBytes?, hcanonical, Value.ofText?]

/-- A backslash in front of a character that has to be escaped is refused in every encoding as it
is in the text. -/
theorem ofBytes_written_malformed :
    Canonical.ofBytes (utf16LE.written true "\"\\é\"") = .error (.malformedEscape "\\é" ⟨1, 8⟩)
    ∧ Value.ofBytes? 1 (utf32BE.written false "\"\\é\"")
      = .error (.malformedEscape "\\é" ⟨1, 8⟩) := by
  have hfirst : ∀ c, "\"\\é\"".toList[0]? = some c → 1 ≤ c.toNat ∧ c.toNat ≤ 0x7F := by
    rintro c ⟨⟩
    decide
  have hsecond : ∀ c, "\"\\é\"".toList[1]? = some c → c ≠ '\x00' := by
    rintro c ⟨⟩
    decide
  constructor
  · rw [(ofBytes_written utf16LE true _ hfirst hsecond).1]
    rfl
  · rw [(ofBytes_written utf32BE false _ hfirst hsecond).2]
    rfl

end JsonAxes.Encoding

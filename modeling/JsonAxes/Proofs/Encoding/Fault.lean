import JsonAxes.Proofs.Encoding.Decoding
import JsonAxes.Proofs.Text.Objection

/-!
# Where bytes are at fault

Bytes that are not well formed in the encoding they appear to be in are refused, and the error
points at the fault (`Encoding.FaultAt`): in UTF-8 it lies behind the longest prefix that is well
formed; in the wider encodings it is the unit that is cut off at the end, or else the first unit
that is no part of a character. Whether a unit is one is told by its neighbours alone, with no
decoding.

Either everything is decoded, or there is a fault (`Encoding.Outcome`). From this follows what is
reported, together with the escape in front of the fault that may be objected to before
(`Encoding.ofBytes_faults`).
-/

set_option autoImplicit false

namespace JsonAxes.Encoding

/-! ## Faults -/

/-- Whether bytes are those of some characters. -/
def WellFormed (encoding : Encoding) (bytes : List UInt8) : Prop :=
  ∃ cs, bytes = encoding.encode cs

/-- The bytes behind the byte-order mark. -/
def body (bytes : List UInt8) : List UInt8 := bytes.drop (sniff bytes).2

/-- Whether it is the number of bytes that is wrong. -/
def Flaw.isTruncation : Flaw → Bool
  | truncatedUnit16 => true
  | truncatedUnit32 => true
  | invalidSequence => false
  | unpairedSurrogate => false
  | invalidCodePoint => false

/-- Whether a unit between others is a surrogate without its partner next to it. -/
def Unpaired (before : List Nat) (unit : Nat) (after : List Nat) : Prop :=
  (Text.isHighSurrogate unit = true
    ∧ ∀ low, after.head? = some low → Text.isLowSurrogate low = false)
  ∨ (Text.isLowSurrogate unit = true
    ∧ ∀ high, before.getLast? = some high → Text.isHighSurrogate high = false)

/-- Whether a unit between others has a property, and none in front of it has. -/
def IsFirst (Misfit : List Nat → Nat → List Nat → Prop) (before : List Nat) (unit : Nat)
    (after : List Nat) : Prop :=
  Misfit before unit after
  ∧ ∀ front earlier between, before = front ++ earlier :: between →
    ¬ Misfit front earlier (between ++ unit :: after)

/-- Where bytes that are to be units are at fault: at the incomplete unit at the end, or else at the
first unit that is a misfit. -/
def UnitFault (size : Nat) (units : List UInt8 → List Nat)
    (Misfit : List Nat → Nat → List Nat → Prop) (truncation misfit : Flaw) (body : List UInt8)
    (offset : Nat) (flaw : Flaw) : Prop :=
  if body.length % size = 0 then
    flaw = misfit ∧ ∃ before unit after, units body = before ++ unit :: after
      ∧ IsFirst Misfit before unit after ∧ offset = size * before.length
  else flaw = truncation ∧ offset = size * (body.length / size)

/-- Where UTF-8 is at fault: behind the longest prefix that is well formed. -/
def SequenceFault (body : List UInt8) (offset : Nat) (flaw : Flaw) : Prop :=
  flaw = .invalidSequence ∧ WellFormed utf8 (body.take offset)
  ∧ ∀ n ≤ body.length, WellFormed utf8 (body.take n) → n ≤ offset

/-- Where UTF-16 is at fault. -/
def Fault16 (order : ByteOrder) : List UInt8 → Nat → Flaw → Prop :=
  UnitFault 2 (units16 order) Unpaired .truncatedUnit16 .unpairedSurrogate

/-- Where UTF-32 is at fault. -/
def Fault32 (order : ByteOrder) : List UInt8 → Nat → Flaw → Prop :=
  UnitFault 4 (units32 order) (fun _ unit _ => ¬ unit.isValidChar) .truncatedUnit32
    .invalidCodePoint

/-- Where bytes are at fault in an encoding. -/
def FaultAt (encoding : Encoding) : List UInt8 → Nat → Flaw → Prop :=
  match encoding with
  | utf8 => SequenceFault
  | utf16LE => Fault16 .littleEndian
  | utf16BE => Fault16 .bigEndian
  | utf32LE => Fault32 .littleEndian
  | utf32BE => Fault32 .bigEndian

/-! ## What decoding comes to -/

/-- What decoding comes to: everything is decoded, or else there is a fault. Then nothing is handed
on, or, where units are decoded one after another, what stands in front of the fault. -/
inductive Outcome (encoding : Encoding) (body : List UInt8) : Decoded → Prop
  | whole {cs : List Char} (h : body = encoding.encode cs) : Outcome encoding body ⟨cs, none⟩
  | faulty {cs : List Char} {offset : Nat} {flaw : Flaw} (hlt : offset < body.length)
      (hfault : FaultAt encoding body offset flaw)
      (htaken : flaw.isTruncation = false → WellFormed encoding (body.take offset))
      (hchars : cs = [] ∨ encoding ≠ utf8 ∧ flaw.isTruncation = false
        ∧ body.take offset = encoding.encode cs) :
      Outcome encoding body ⟨cs, some (offset, flaw)⟩

/-! ### UTF-8 -/

theorem readUtf8_eq (offset : Nat) (xs : List UInt8) :
    ∃ (cs : List Char) (rest : List UInt8), xs = cs.flatMap String.utf8EncodeChar ++ rest
      ∧ BeginsNone String.utf8EncodeChar rest
      ∧ (rest = [] ∧ decodeUtf8 offset xs = ⟨cs, none⟩
        ∨ rest ≠ [] ∧ decodeUtf8 offset xs = ⟨cs,
          some (offset + 1 * (cs.flatMap String.utf8EncodeChar).length, .invalidSequence)⟩) :=
  read_eq (p := fun _ => True) (fun _ => rfl) decodeUtf8_append
    (fun _ => String.utf8EncodeChar_ne_nil) (fun hne _ h => decodeUtf8_of_beginsNone hne h) offset
    xs fun _ _ => trivial

/-- A prefix that is well formed is decoded whole, so the fault does not lie within it. -/
theorem le_of_decodeUtf8 {body : List UInt8} {cs : List Char} {offset n : Nat} {flaw : Flaw}
    (hn : n ≤ body.length) (htaken : WellFormed utf8 (body.take n))
    (h : decodeUtf8 0 body = ⟨cs, some (offset, flaw)⟩) : n ≤ offset := by
  -- decoding comes to what stands behind the prefix with `n` bytes already taken
  obtain ⟨front, hfront⟩ := htaken
  have hfront : body.take n = front.flatMap String.utf8EncodeChar := hfront
  have hlength : (front.flatMap String.utf8EncodeChar).length = n := by
    rw [← hfront, List.length_take, Nat.min_eq_left hn]
  rw [← List.take_append_drop n body, hfront, decoded_append decodeUtf8_append, hlength,
    Nat.zero_add, Nat.one_mul, Decoded.mk.injEq] at h
  obtain ⟨more, rest, -, -, ⟨-, hdecoded⟩ | ⟨-, hdecoded⟩⟩ := readUtf8_eq n (body.drop n)
  · rw [hdecoded] at h
    cases h.2
  · rw [hdecoded, Option.some_inj, Prod.mk.injEq] at h
    exact h.2.1 ▸ Nat.le_add_right n _

theorem outcome_utf8 (body : List UInt8) : Outcome utf8 body (utf8.decode body) := by
  obtain ⟨cs, rest, hbody, -, ⟨rfl, hdecoded⟩ | ⟨hrest, hdecoded⟩⟩ := readUtf8_eq 0 body
  · rw [decode, hdecoded]
    rw [List.append_nil] at hbody
    exact .whole hbody
  · rw [Nat.zero_add, Nat.one_mul] at hdecoded
    have htaken : WellFormed utf8 (body.take (cs.flatMap String.utf8EncodeChar).length) :=
      ⟨cs, by rw [hbody, List.take_left]; rfl⟩
    have hlt : (cs.flatMap String.utf8EncodeChar).length < body.length := by
      have hpos := List.length_pos_iff.mpr hrest
      rw [hbody, List.length_append]
      omega
    rw [decode, hdecoded]
    exact .faulty hlt ⟨rfl, htaken, fun n hn h => le_of_decodeUtf8 hn h hdecoded⟩
      (fun _ => htaken) (.inl rfl)

/-! ### Wider units -/

/-- A unit that begins no character is no code point, where a code point would be a unit. -/
theorem not_isValidChar_of_beginsNone {f : Char → List Nat} {unit : Nat} {after : List Nat}
    (hf : ∀ c, Text.charOfCode? unit = some c → f c = [unit])
    (h : BeginsNone f (unit :: after)) : ¬ unit.isValidChar := by
  rw [← Text.isSome_charOfCode?_iff, Option.isSome_iff_exists]
  rintro ⟨c, hc⟩
  exact absurd (by rw [hf c hc]; rfl) (h c after)

section Units

variable {encoding : Encoding} {body : List UInt8} {size : Nat} {units : List UInt8 → List Nat}
  {bytes : Nat → List UInt8} {charUnits : Char → List Nat}
  {Misfit : List Nat → Nat → List Nat → Prop} {truncation misfit : Flaw}

theorem outcome_truncated (hflaw : truncation.isTruncation = true)
    (hfault : FaultAt encoding = UnitFault size units Misfit truncation misfit)
    (h : body.length % size ≠ 0) :
    Outcome encoding body (.stopped (size * (body.length / size)) truncation) := by
  have hlt : size * (body.length / size) < body.length := by
    have hdiv := Nat.div_add_mod body.length size
    omega
  refine .faulty hlt ?_ (fun hnot => ?_) (.inl rfl)
  · rw [hfault, UnitFault, if_neg h]
    exact ⟨rfl, rfl⟩
  · rw [hflaw] at hnot
    cases hnot

/-- Units are decoded up to the first misfit. -/
theorem outcome_units (hwide : encoding ≠ utf8) (hflaw : misfit.isTruncation = false)
    (hsize : 0 < size)
    (hchar : encoding.charBytes = fun c => (charUnits c).flatMap bytes)
    (hbytes : ∀ unit, (bytes unit).length = size)
    (hunits : (units body).flatMap bytes = body)
    (hfault : FaultAt encoding = UnitFault size units Misfit truncation misfit)
    (h : body.length % size = 0) {decoded : Decoded}
    (hread : ∃ (cs : List Char) (rest : List Nat), units body = cs.flatMap charUnits ++ rest
      ∧ (rest = [] ∧ decoded = ⟨cs, none⟩
        ∨ (∃ unit after, rest = unit :: after ∧ IsFirst Misfit (cs.flatMap charUnits) unit after)
          ∧ decoded = ⟨cs, some (size * (cs.flatMap charUnits).length, misfit)⟩)) :
    Outcome encoding body decoded := by
  obtain ⟨cs, rest, hsplit, hdecoded⟩ := hread
  have hencode : encoding.encode cs = (cs.flatMap charUnits).flatMap bytes := by
    rw [encode, hchar, List.flatMap_assoc]
  have hbody : body = encoding.encode cs ++ rest.flatMap bytes := by
    rw [hencode, ← List.flatMap_append, ← hsplit, hunits]
  have hlength : (encoding.encode cs).length = size * (cs.flatMap charUnits).length := by
    rw [hencode, length_flatMap_of_length hbytes]
  obtain ⟨rfl, rfl⟩ | ⟨⟨unit, after, rfl, hfirst⟩, rfl⟩ := hdecoded
  · rw [List.flatMap_nil, List.append_nil] at hbody
    exact .whole hbody
  · have hlt : size * (cs.flatMap charUnits).length < body.length := by
      rw [← hlength, hbody, List.length_append, List.flatMap_cons, List.length_append, hbytes]
      omega
    have htaken : body.take (size * (cs.flatMap charUnits).length) = encoding.encode cs := by
      rw [hbody, ← hlength, List.take_left]
    refine .faulty hlt ?_ (fun _ => ⟨cs, htaken⟩) (.inr ⟨hwide, hflaw, htaken⟩)
    rw [hfault, UnitFault, if_pos h]
    exact ⟨rfl, _, unit, after, hsplit, hfirst, rfl⟩

end Units

/-! ### UTF-16 -/

/-- A character takes one unit that is no surrogate, or a pair of surrogates. -/
theorem units_cases (c : Char) :
    (∃ unit, Text.units c = [unit] ∧ Text.isHighSurrogate unit = false
      ∧ Text.isLowSurrogate unit = false)
    ∨ ∃ high low, Text.units c = [high, low] ∧ Text.isHighSurrogate high = true
      ∧ Text.isLowSurrogate low = true := by
  by_cases hc : c.toNat < 0x10000
  · exact .inl ⟨c.toNat, if_pos hc, Text.isHighSurrogate_toNat c, Text.isLowSurrogate_toNat c⟩
  · obtain ⟨high, low, hunits, hhigh, hlow, -⟩ := Text.exists_pair_of_le (Nat.not_lt.mp hc)
    exact .inr ⟨high, low, hunits, hhigh, hlow⟩

/-- Only the neighbours of a unit make a difference. -/
theorem Unpaired.of_append {earlier before after : List Nat} {unit : Nat}
    (h : Unpaired (earlier ++ before) unit after) : Unpaired before unit after := by
  refine h.imp_right fun ⟨hlow, hbefore⟩ => ⟨hlow, fun high hhigh => hbefore high ?_⟩
  rw [List.getLast?_append, hhigh, Option.some_or]

theorem not_unpaired_of_units {c : Char} {before between : List Nat} {unit : Nat}
    (h : Text.units c = before ++ unit :: between) (rest : List Nat) :
    ¬ Unpaired before unit (between ++ rest) := by
  rcases units_cases c with ⟨u, hunits, hhigh, hlow⟩ | ⟨high, low, hunits, hhigh, hlow⟩
  · rw [hunits, List.cons_eq_append_iff] at h
    obtain ⟨rfl, h⟩ | ⟨before, -, h⟩ := h
    · cases h
      simp [Unpaired, hhigh, hlow]
    · simp at h
  · rw [hunits, List.cons_eq_append_iff] at h
    obtain ⟨rfl, h⟩ | ⟨before, rfl, h⟩ := h
    · cases h
      simp [Unpaired, hlow, Text.isLowSurrogate_of_isHighSurrogate hhigh]
    rw [List.cons_eq_append_iff] at h
    obtain ⟨rfl, h⟩ | ⟨before, -, h⟩ := h
    · cases h
      simp [Unpaired, hhigh, Text.isHighSurrogate_of_isLowSurrogate hlow]
    · simp at h

/-- In the units of characters no unit is unpaired, whatever stands behind them. -/
theorem not_unpaired_of_flatMap {cs : List Char} {before between : List Nat} {unit : Nat}
    (h : cs.flatMap Text.units = before ++ unit :: between) (rest : List Nat) :
    ¬ Unpaired before unit (between ++ rest) := by
  induction cs generalizing before with
  | nil => simp at h
  | cons c cs ih =>
      -- the unit belongs to a later character, or it is one of the first
      rw [List.flatMap_cons, List.append_eq_append_iff] at h
      obtain ⟨before', rfl, h⟩ | ⟨within, hunits, h⟩ := h
      · exact fun hunpaired => ih h hunpaired.of_append
      · rcases within with _ | ⟨u, within⟩
        · intro hunpaired
          have hnil : Unpaired (before ++ []) unit (between ++ rest) := by
            rwa [List.append_nil]
          exact ih (show cs.flatMap Text.units = [] ++ unit :: between from h.symm) hnil.of_append
        · rw [List.cons_append, List.cons.injEq] at h
          obtain ⟨rfl, rfl⟩ := h
          rw [List.append_assoc]
          exact not_unpaired_of_units hunits _

/-- The last unit of some characters is not the first of a pair. -/
theorem isHighSurrogate_of_getLast? {cs : List Char} {unit : Nat}
    (h : (cs.flatMap Text.units).getLast? = some unit) : Text.isHighSurrogate unit = false := by
  rcases List.eq_nil_or_concat' cs with rfl | ⟨cs, c, rfl⟩
  · cases h
  · rw [List.flatMap_append, List.flatMap_singleton, List.getLast?_append] at h
    rcases units_cases c with ⟨u, hunits, hhigh, -⟩ | ⟨high, low, hunits, -, hlow⟩
    · rw [hunits, List.getLast?_singleton, Option.some_or, Option.some_inj] at h
      exact h ▸ hhigh
    · rw [hunits, List.getLast?_cons_cons, List.getLast?_singleton, Option.some_or,
        Option.some_inj] at h
      exact h ▸ Text.isHighSurrogate_of_isLowSurrogate hlow

theorem exists_pairChar? {high low : Nat} (hhigh : Text.isHighSurrogate high = true)
    (hlow : Text.isLowSurrogate low = true) : ∃ c, pairChar? high low = some c := by
  rw [pairChar?, hhigh, hlow, Bool.and_self, if_pos rfl, ← Option.isSome_iff_exists,
    Text.isSome_charOfCode?_iff]
  exact Text.isValidChar_pairCode hhigh hlow

/-- A unit that begins no character is unpaired behind characters. -/
theorem unpaired_of_beginsNone {cs : List Char} {unit : Nat} {after : List Nat}
    (hlt : unit < 0x10000) (h : BeginsNone Text.units (unit :: after)) :
    Unpaired (cs.flatMap Text.units) unit after := by
  -- what is no code point, and no longer than two bytes, is a surrogate
  have hinvalid : ¬ unit.isValidChar :=
    not_isValidChar_of_beginsNone (fun _ => units_of_charOfCode? hlt) h
  by_cases hunit : unit < 0xDC00
  · have hhigh : Text.isHighSurrogate unit = true :=
      Text.isHighSurrogate_iff.mpr ⟨Nat.not_lt.mp fun hlow => hinvalid (.inl hlow), hunit⟩
    refine .inl ⟨hhigh, fun low hafter => ?_⟩
    rw [List.head?_eq_some_iff] at hafter
    obtain ⟨rest, rfl⟩ := hafter
    by_contra hlow
    obtain ⟨c, hc⟩ := exists_pairChar? hhigh (Bool.not_eq_false _ ▸ hlow)
    exact absurd (by rw [units_of_pairChar? hc]; rfl) (h c rest)
  · have hlow : Text.isLowSurrogate unit = true := by
      rw [Text.isLowSurrogate_iff]
      refine ⟨Nat.not_lt.mp hunit, Nat.not_le.mp fun hhigh => hinvalid (.inr ⟨hhigh, ?_⟩)⟩
      omega
    exact .inr ⟨hlow, fun high => isHighSurrogate_of_getLast?⟩

theorem outcome_utf16 {encoding : Encoding} (hwide : encoding ≠ utf8) {order : ByteOrder}
    (hchar : encoding.charBytes = fun c => (Text.units c).flatMap (bytes16 order))
    (hfault : FaultAt encoding = Fault16 order) (body : List UInt8) :
    Outcome encoding body (decodeUtf16 order body) := by
  unfold decodeUtf16
  split
  · next hsize =>
    refine outcome_units hwide rfl (by decide) hchar (length_bytes16 order)
      (flatMap_units16 order hsize) hfault hsize ?_
    obtain ⟨cs, rest, hsplit, hbegins, hread⟩ := read_eq (fun _ => rfl) decodeUnits16_append
      units_ne_nil (fun hne hlt h => decodeUnits16_of_beginsNone hne hlt h) 0
      (units16 order body) (lt_of_mem_units16 order body)
    refine ⟨cs, rest, hsplit, hread.imp_right fun ⟨hne, hdecoded⟩ => ⟨?_, ?_⟩⟩
    · obtain ⟨unit, after, rfl⟩ := List.exists_cons_of_ne_nil hne
      have hlt : unit < 0x10000 :=
        lt_of_mem_units16 order body unit (by rw [hsplit]; simp)
      exact ⟨unit, after, rfl, unpaired_of_beginsNone hlt hbegins,
        fun _ _ _ hbefore => not_unpaired_of_flatMap hbefore _⟩
    · rw [hdecoded, Nat.zero_add]
  · next hsize =>
    -- one byte is left over
    have hoffset : body.length - 1 = 2 * (body.length / 2) := by omega
    rw [hoffset]
    exact outcome_truncated rfl hfault hsize

/-! ### UTF-32 -/

theorem outcome_utf32 {encoding : Encoding} (hwide : encoding ≠ utf8) {order : ByteOrder}
    (hchar : encoding.charBytes = fun c => (codeUnit c).flatMap (bytes32 order))
    (hfault : FaultAt encoding = Fault32 order) (body : List UInt8) :
    Outcome encoding body (decodeUtf32 order body) := by
  unfold decodeUtf32
  split
  · next hsize =>
    refine outcome_units hwide rfl (by decide) hchar (length_bytes32 order)
      (flatMap_units32 order hsize) hfault hsize ?_
    obtain ⟨cs, rest, hsplit, hbegins, hread⟩ := read_eq (p := fun _ => True) (f := codeUnit)
      (fun _ => rfl) decodeUnits32_append (fun _ => List.cons_ne_nil _ _)
      (fun hne _ h => decodeUnits32_of_beginsNone hne h) 0 (units32 order body)
      fun _ _ => trivial
    refine ⟨cs, rest, hsplit, hread.imp_right fun ⟨hne, hdecoded⟩ => ⟨?_, ?_⟩⟩
    · obtain ⟨unit, after, rfl⟩ := List.exists_cons_of_ne_nil hne
      have hcode : ∀ c, Text.charOfCode? unit = some c → codeUnit c = [unit] :=
        fun c hc => by rw [codeUnit, Text.toNat_of_charOfCode? hc]
      refine ⟨unit, after, rfl, not_isValidChar_of_beginsNone hcode hbegins, ?_⟩
      intro front earlier between hbefore hinvalid
      have hearlier : earlier ∈ cs.flatMap codeUnit := by rw [hbefore]; simp
      obtain ⟨c, -, hc⟩ := List.mem_flatMap.mp hearlier
      rw [codeUnit, List.mem_singleton] at hc
      exact hinvalid (hc ▸ c.valid)
    · rw [hdecoded, Nat.zero_add]
  · next hsize =>
    have hoffset : body.length - body.length % 4 = 4 * (body.length / 4) := by omega
    rw [hoffset]
    exact outcome_truncated rfl hfault hsize

theorem outcome_decode (encoding : Encoding) (body : List UInt8) :
    Outcome encoding body (encoding.decode body) := by
  have hlittle : utf32LE.charBytes = fun c => (codeUnit c).flatMap (bytes32 .littleEndian) :=
    funext fun _ => (List.flatMap_singleton _ _).symm
  have hbig : utf32BE.charBytes = fun c => (codeUnit c).flatMap (bytes32 .bigEndian) :=
    funext fun _ => (List.flatMap_singleton _ _).symm
  cases encoding with
  | utf8 => exact outcome_utf8 body
  | utf16LE => exact outcome_utf16 (by decide) rfl rfl body
  | utf16BE => exact outcome_utf16 (by decide) rfl rfl body
  | utf32LE => exact outcome_utf32 (by decide) hlittle rfl body
  | utf32BE => exact outcome_utf32 (by decide) hbig rfl body

/-! ## What is reported -/

/-- Bytes that are decoded with a fault are those of no characters. -/
theorem not_wellFormed_of_decode {encoding : Encoding} {body : List UInt8} {cs : List Char}
    {fault : Nat × Flaw} (h : encoding.decode body = ⟨cs, some fault⟩) :
    ¬ WellFormed encoding body := by
  rintro ⟨whole, rfl⟩
  rw [decode_encode] at h
  cases h

section Report

variable {bytes : List UInt8} {cs : List Char}

theorem ofText_ofList (cs : List Char) :
    Canonical.ofText (String.ofList cs)
      = (Canonical.ofCharsFrom 0 0 cs).map String.ofList := by
  rw [Canonical.ofText, Canonical.ofChars_eq, String.toList_ofList]

theorem ofBytes_of_whole (h : (detect bytes).decode (body bytes) = ⟨cs, none⟩) :
    Canonical.ofBytes bytes = Canonical.ofText (String.ofList cs) := by
  rw [detect, body] at h
  simp only [ofText_ofList, Canonical.ofBytes, h]
  cases Canonical.ofCharsFrom 0 0 cs <;> rfl

variable {offset : Nat} {flaw : Flaw}

theorem ofBytes_of_fault (h : (detect bytes).decode (body bytes) = ⟨cs, some (offset, flaw)⟩) :
    Canonical.ofBytes bytes = (Canonical.ofText (String.ofList cs)).bind fun _ =>
      .error (.badEncoding (detect bytes) ((sniff bytes).2 + offset) flaw) := by
  rw [detect, body] at h
  simp only [ofText_ofList, Canonical.ofBytes, h]
  cases Canonical.ofCharsFrom 0 0 cs <;> rfl

end Report

/-- **An error of the encoding points at the fault.** If one is reported, then the bytes behind the
byte-order mark are not well formed, and its offset is that of the fault, with the mark in front;
it lies within the bytes, and unless their number is wrong, all in front of it is well formed. Bytes
that are not well formed are always refused, if not for the fault, then, in the wider encodings, for
a malformed escape in front of it. -/
theorem ofBytes_faults (bytes : List UInt8) :
    (∀ encoding offset flaw,
      Canonical.ofBytes bytes = .error (.badEncoding encoding offset flaw) →
      encoding = detect bytes ∧ ¬ WellFormed (detect bytes) (body bytes) ∧ offset < bytes.length
      ∧ ∃ behind, offset = (sniff bytes).2 + behind
        ∧ FaultAt (detect bytes) (body bytes) behind flaw
        ∧ (flaw.isTruncation = false → WellFormed (detect bytes) ((body bytes).take behind)))
    ∧ (¬ WellFormed (detect bytes) (body bytes) →
      ∃ behind flaw, FaultAt (detect bytes) (body bytes) behind flaw
        ∧ (Canonical.ofBytes bytes
            = .error (.badEncoding (detect bytes) ((sniff bytes).2 + behind) flaw)
          ∨ detect bytes ≠ utf8 ∧ flaw.isTruncation = false ∧ ∃ cs escape span,
            (body bytes).take behind = (detect bytes).encode cs
            ∧ Canonical.ofText (String.ofList cs) = .error (.malformedEscape escape span)
            ∧ Canonical.ofBytes bytes = .error (.malformedEscape escape span))) := by
  have hlength : (body bytes).length = bytes.length - (sniff bytes).2 := List.length_drop
  have houtcome := outcome_decode (detect bytes) (body bytes)
  generalize hdecoded : (detect bytes).decode (body bytes) = decoded at houtcome
  cases houtcome with
  | @whole cs hbody =>
      refine ⟨fun encoding offset flaw h => ?_, fun hnot => absurd ⟨cs, hbody⟩ hnot⟩
      rw [ofBytes_of_whole hdecoded] at h
      obtain ⟨_, _, _, -, -, -, he⟩ := Canonical.exists_misplaced_of_ofText_eq_error h
      cases he
  | @faulty cs behind flaw hlt hfault htaken hchars =>
      have hbytes := ofBytes_of_fault hdecoded
      cases hcs : Canonical.ofText (String.ofList cs) with
      | error e =>
          -- an escape in front of the fault is objected to
          rw [hcs, Except.bind] at hbytes
          obtain ⟨_, _, _, -, -, -, rfl⟩ := Canonical.exists_misplaced_of_ofText_eq_error hcs
          rcases hchars with rfl | ⟨hwide, hflaw, hfront⟩
          · cases hcs
          refine ⟨fun encoding offset flaw h => ?_, fun _ => ⟨behind, flaw, hfault, .inr ?_⟩⟩
          · rw [hbytes] at h
            cases h
          · exact ⟨hwide, hflaw, cs, _, _, hfront, hcs, hbytes⟩
      | ok canonical =>
          rw [hcs, Except.bind] at hbytes
          refine ⟨fun encoding offset flaw h => ?_, fun _ => ⟨behind, flaw, hfault, .inl hbytes⟩⟩
          rw [hbytes] at h
          cases h
          exact ⟨rfl, not_wellFormed_of_decode hdecoded, by omega, behind, rfl, hfault, htaken⟩

/-- A low surrogate behind a pair has no partner left. It is reported, unless an escape in front of
it is objected to first. -/
theorem ofBytes_faults_behindPair :
    (Canonical.ofBytes [0xFE, 0xFF, 0x00, 0x41, 0xD8, 0x3D, 0xDE, 0x00, 0xDE, 0x00]
        = .error (.badEncoding utf16BE 8 .unpairedSurrogate)
      ∧ FaultAt utf16BE [0x00, 0x41, 0xD8, 0x3D, 0xDE, 0x00, 0xDE, 0x00] 6 .unpairedSurrogate)
    ∧ Canonical.ofBytes [0xFE, 0xFF, 0x00, 0x5C, 0xD8, 0x3D, 0xDE, 0x00, 0xDE, 0x00]
      = .error (.malformedEscape "\\😀" ⟨0, 13⟩) := by
  have herror : Canonical.ofBytes [0xFE, 0xFF, 0x00, 0x41, 0xD8, 0x3D, 0xDE, 0x00, 0xDE, 0x00]
      = .error (.badEncoding utf16BE 8 .unpairedSurrogate) := by decide
  obtain ⟨hpoints, -⟩ := ofBytes_faults
    [0xFE, 0xFF, 0x00, 0x41, 0xD8, 0x3D, 0xDE, 0x00, 0xDE, 0x00]
  obtain ⟨-, -, -, behind, hbehind, hfault, -⟩ := hpoints _ _ _ herror
  have hoffset : 8 = 2 + behind := hbehind
  obtain rfl : behind = 6 := by omega
  exact ⟨⟨herror, hfault⟩, by decide⟩

end JsonAxes.Encoding

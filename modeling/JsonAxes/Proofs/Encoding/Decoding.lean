import JsonAxes.Proofs.Encoding.Agreement

/-!
# What is decoded was written

The characters that are decoded, written again, are the bytes they were decoded from, up to where
decoding stops. A list of bytes or units is divided into what is written for some characters and a
rest that begins with none (`Encoding.exists_flatMap_append`), and the decoders read just those
characters (`Encoding.read_eq`). What is to be shown of each decoder is that it reads what is
written for a character, which was shown for the encodings to agree, and that it is stopped by what
begins with no character.
-/

set_option autoImplicit false

namespace JsonAxes.Encoding

/-! ## Up to the fault -/

section Readers

variable {α : Type} {read : Nat → List α → Decoded} {f : Char → List α} {p : α → Prop}

/-- Whether a list does not begin with what is written for a character. -/
def BeginsNone (f : Char → List α) (xs : List α) : Prop := ∀ c rest, xs ≠ f c ++ rest

theorem exists_flatMap_append (hne : ∀ c, f c ≠ []) (xs : List α) :
    ∃ (cs : List Char) (rest : List α), xs = cs.flatMap f ++ rest ∧ BeginsNone f rest := by
  -- by the length, of which each character that is written in front takes some
  induction hlength : xs.length using Nat.strongRecOn generalizing xs with
  | ind n ih =>
      by_cases hfront : ∃ c more, xs = f c ++ more
      · obtain ⟨c, more, rfl⟩ := hfront
        have hlt : more.length < n := by
          have hpos := List.length_pos_iff.mpr (hne c)
          rw [List.length_append] at hlength
          omega
        obtain ⟨cs, rest, hmore, hrest⟩ := ih more.length hlt more rfl
        exact ⟨c :: cs, rest, by rw [List.flatMap_cons, List.append_assoc, ← hmore], hrest⟩
      · exact ⟨[], xs, rfl, fun c more hxs => hfront ⟨c, more, hxs⟩⟩

/-- A decoder reads the characters that are written in front, and is stopped by what begins with
none. -/
theorem read_eq {size : Nat} {flaw : Flaw} (hnil : ∀ offset, read offset [] = .finished)
    (hchar : ∀ c offset rest,
      read offset (f c ++ rest) = (read (offset + size * (f c).length) rest).cons c)
    (hne : ∀ c, f c ≠ [])
    (hstop : ∀ {xs}, xs ≠ [] → (∀ x ∈ xs, p x) → BeginsNone f xs →
      ∀ offset, read offset xs = .stopped offset flaw)
    (offset : Nat) (xs : List α) (hxs : ∀ x ∈ xs, p x) :
    ∃ (cs : List Char) (rest : List α), xs = cs.flatMap f ++ rest ∧ BeginsNone f rest
      ∧ (rest = [] ∧ read offset xs = ⟨cs, none⟩
        ∨ rest ≠ []
          ∧ read offset xs = ⟨cs, some (offset + size * (cs.flatMap f).length, flaw)⟩) := by
  obtain ⟨cs, rest, rfl, hrest⟩ := exists_flatMap_append hne xs
  refine ⟨cs, rest, rfl, hrest, ?_⟩
  rw [decoded_append hchar]
  by_cases hnone : rest = []
  · rw [hnone, hnil, Decoded.finished, List.append_nil]
    exact .inl ⟨rfl, rfl⟩
  · rw [hstop hnone (fun x hx => hxs x (List.mem_append_right _ hx)) hrest, Decoded.stopped,
      List.append_nil]
    exact .inr ⟨hnone, rfl⟩

end Readers

/-! ## UTF-8 -/

theorem toNat_of_charFrom? {least code : Nat} {c : Char} (h : charFrom? least code = some c) :
    c.toNat = code ∧ least ≤ code := by
  unfold charFrom? at h
  split at h
  · next hleast => exact ⟨Text.toNat_of_charOfCode? h, hleast⟩
  · cases h

theorem toNat_of_continuation? {b : UInt8} {n : Nat} (h : continuation? b = some n) :
    b.toNat = n + 0x80 ∧ n < 0x40 := by
  unfold continuation? at h
  split at h
  · next hbounds =>
    rw [Bool.and_eq_true, decide_eq_true_eq, decide_eq_true_eq, UInt8.le_iff_toNat_le,
      UInt8.lt_iff_toNat_lt] at hbounds
    have hlow : 0x80 ≤ b.toNat := hbounds.1
    have hhigh : b.toNat < 0xC0 := hbounds.2
    rw [Option.some_inj] at h
    omega
  · cases h

theorem ofNat_eq {b : UInt8} {n : Nat} (h : n = b.toNat) : UInt8.ofNat n = b := by
  rw [h, UInt8.ofNat_toNat]

section Lead

variable {a b c d : UInt8} {ch : Char}

theorem utf8EncodeChar_one (ha : a.toNat < 0x80) :
    String.utf8EncodeChar (Char.ofNat a.toNat) = [a] := by
  have hvalid : a.toNat.isValidChar := .inl (by omega)
  have hval : (Char.ofNat a.toNat).val.toNat = a.toNat := by
    rw [Char.ofNat, dif_pos hvalid]
    rfl
  simp only [String.utf8EncodeChar, hval]
  rw [if_pos (by omega), UInt8.ofNat_toNat]

theorem utf8EncodeChar_two (hlow : 0xC0 ≤ a.toNat) (hhigh : a.toNat < 0xE0)
    (h : char2? a b = some ch) : String.utf8EncodeChar ch = [a, b] := by
  rw [char2?, Option.bind_eq_bind, Option.bind_eq_some_iff] at h
  obtain ⟨y, hy, hcode⟩ := h
  obtain ⟨hb, hy⟩ := toNat_of_continuation? hy
  obtain ⟨hcode, hleast⟩ := toNat_of_charFrom? hcode
  have hval : ch.val.toNat = ch.toNat := rfl
  simp only [String.utf8EncodeChar, hval]
  rw [if_neg (by omega), if_pos (by omega), ofNat_eq (b := a) (by omega),
    ofNat_eq (b := b) (by omega)]

theorem utf8EncodeChar_three (hlow : 0xE0 ≤ a.toNat) (hhigh : a.toNat < 0xF0)
    (h : char3? a b c = some ch) : String.utf8EncodeChar ch = [a, b, c] := by
  simp only [char3?, Option.bind_eq_bind, Option.bind_eq_some_iff] at h
  obtain ⟨y, hy, z, hz, hcode⟩ := h
  obtain ⟨hb, hy⟩ := toNat_of_continuation? hy
  obtain ⟨hc, hz⟩ := toNat_of_continuation? hz
  obtain ⟨hcode, hleast⟩ := toNat_of_charFrom? hcode
  have hval : ch.val.toNat = ch.toNat := rfl
  simp only [String.utf8EncodeChar, hval]
  rw [if_neg (by omega), if_neg (by omega), if_pos (by omega), ofNat_eq (b := a) (by omega),
    ofNat_eq (b := b) (by omega), ofNat_eq (b := c) (by omega)]

theorem utf8EncodeChar_four (hlow : 0xF0 ≤ a.toNat) (hhigh : a.toNat < 0xF8)
    (h : char4? a b c d = some ch) : String.utf8EncodeChar ch = [a, b, c, d] := by
  simp only [char4?, Option.bind_eq_bind, Option.bind_eq_some_iff] at h
  obtain ⟨x, hx, y, hy, z, hz, hcode⟩ := h
  obtain ⟨hb, hx⟩ := toNat_of_continuation? hx
  obtain ⟨hc, hy⟩ := toNat_of_continuation? hy
  obtain ⟨hd, hz⟩ := toNat_of_continuation? hz
  obtain ⟨hcode, hleast⟩ := toNat_of_charFrom? hcode
  have hval : ch.val.toNat = ch.toNat := rfl
  simp only [String.utf8EncodeChar, hval]
  rw [if_neg (by omega), if_neg (by omega), if_neg (by omega), ofNat_eq (b := a) (by omega),
    ofNat_eq (b := b) (by omega), ofNat_eq (b := c) (by omega), ofNat_eq (b := d) (by omega)]

end Lead

/-- Bytes that begin with no character stop the decoder. -/
theorem decodeUtf8_of_beginsNone {xs : List UInt8} (hne : xs ≠ [])
    (h : BeginsNone String.utf8EncodeChar xs) (offset : Nat) :
    decodeUtf8 offset xs = .stopped offset .invalidSequence := by
  obtain ⟨a, xs, rfl⟩ := List.exists_cons_of_ne_nil hne
  have hnone : ∀ c piece rest, String.utf8EncodeChar c = piece → a :: xs ≠ piece ++ rest := by
    rintro c piece rest rfl
    exact h c rest
  -- wherever the decoder finds a character, that character is written in front
  rw [decodeUtf8.eq_def]
  simp only
  split
  · next ha => exact absurd rfl (hnone _ [a] xs (utf8EncodeChar_one ha))
  split
  · rfl
  next hlead =>
  have htwo : 0xC0 ≤ a.toNat := Nat.not_lt.mp hlead
  split
  · next ha =>
    split
    · next b rest =>
      split
      · next c hc => exact absurd rfl (hnone c [a, b] rest (utf8EncodeChar_two htwo ha hc))
      · rfl
    · rfl
  next hlead =>
  have hthree : 0xE0 ≤ a.toNat := Nat.not_lt.mp hlead
  split
  · next ha =>
    split
    · next b c rest =>
      split
      · next d hd => exact absurd rfl (hnone d [a, b, c] rest (utf8EncodeChar_three hthree ha hd))
      · rfl
    · rfl
  next hlead =>
  have hfour : 0xF0 ≤ a.toNat := Nat.not_lt.mp hlead
  split
  · next ha =>
    split
    · next b c d rest =>
      split
      · next e he => exact absurd rfl (hnone e [a, b, c, d] rest (utf8EncodeChar_four hfour ha he))
      · rfl
    · rfl
  · rfl

/-! ## UTF-16 -/

theorem units_ne_nil (c : Char) : Text.units c ≠ [] := by
  unfold Text.units
  split
  · exact List.cons_ne_nil _ _
  · exact List.cons_ne_nil _ _

theorem units_of_charOfCode? {unit : Nat} {c : Char} (hlt : unit < 0x10000)
    (h : Text.charOfCode? unit = some c) : Text.units c = [unit] := by
  rw [Text.units, Text.toNat_of_charOfCode? h, if_pos hlt]

theorem units_of_pairChar? {high low : Nat} {c : Char} (h : pairChar? high low = some c) :
    Text.units c = [high, low] := by
  unfold pairChar? at h
  split at h
  · next hpair =>
    rw [Bool.and_eq_true, Text.isHighSurrogate_iff, Text.isLowSurrogate_iff] at hpair
    have hcode : c.toNat = 0x10000 + (high - 0xD800) * 0x400 + (low - 0xDC00) :=
      Text.toNat_of_charOfCode? h
    have hhigh : 0xD800 + (c.toNat - 0x10000) / 0x400 = high := by omega
    have hlow : 0xDC00 + (c.toNat - 0x10000) % 0x400 = low := by omega
    rw [Text.units, if_neg (by omega), hhigh, hlow]
  · cases h

/-- Units that begin with no character stop the decoder. -/
theorem decodeUnits16_of_beginsNone {us : List Nat} (hne : us ≠ []) (hlt : ∀ u ∈ us, u < 0x10000)
    (h : BeginsNone Text.units us) (offset : Nat) :
    decodeUnits16 offset us = .stopped offset .unpairedSurrogate := by
  obtain ⟨unit, us, rfl⟩ := List.exists_cons_of_ne_nil hne
  rw [decodeUnits16.eq_def]
  simp only
  split
  · next c hc =>
    have hunits := units_of_charOfCode? (hlt unit List.mem_cons_self) hc
    exact absurd (by rw [hunits]; rfl) (h c us)
  split
  · next low rest =>
    split
    · next c hc => exact absurd (by rw [units_of_pairChar? hc]; rfl) (h c rest)
    · rfl
  · rfl

/-- The unit of two bytes. -/
def joined16 (order : ByteOrder) (a b : UInt8) : Nat :=
  match order with
  | .littleEndian => a.toNat + 0x100 * b.toNat
  | .bigEndian => 0x100 * a.toNat + b.toNat

theorem units16_cons (order : ByteOrder) (a b : UInt8) (rest : List UInt8) :
    units16 order (a :: b :: rest) = joined16 order a b :: units16 order rest := by
  cases order <;> rfl

theorem joined16_lt (order : ByteOrder) (a b : UInt8) : joined16 order a b < 0x10000 := by
  have ha : a.toNat < 0x100 := a.toNat_lt
  have hb : b.toNat < 0x100 := b.toNat_lt
  unfold joined16
  split
  · omega
  · omega

theorem bytes16_joined (order : ByteOrder) (a b : UInt8) :
    bytes16 order (joined16 order a b) = [a, b] := by
  have ha : a.toNat < 0x100 := a.toNat_lt
  have hb : b.toNat < 0x100 := b.toNat_lt
  cases order with
  | littleEndian =>
      simp only [bytes16, joined16]
      rw [ofNat_eq (b := a) (by omega), ofNat_eq (b := b) (by omega)]
  | bigEndian =>
      simp only [bytes16, joined16]
      rw [ofNat_eq (b := a) (by omega), ofNat_eq (b := b) (by omega)]

/-- Whole units are written as the bytes they were taken from. -/
theorem flatMap_units16 (order : ByteOrder) :
    ∀ {body : List UInt8}, body.length % 2 = 0 →
      (units16 order body).flatMap (bytes16 order) = body
  | [], _ => rfl
  | [_], h => absurd h (by simp)
  | a :: b :: rest, h => by
      have hrest : rest.length % 2 = 0 := by
        rw [List.length_cons, List.length_cons] at h
        omega
      rw [units16_cons, List.flatMap_cons, flatMap_units16 order hrest, bytes16_joined]
      rfl

theorem lt_of_mem_units16 (order : ByteOrder) :
    ∀ (body : List UInt8), ∀ u ∈ units16 order body, u < 0x10000
  | [], _, hu => absurd hu List.not_mem_nil
  | [_], _, hu => absurd hu List.not_mem_nil
  | a :: b :: rest, u, hu => by
      rw [units16_cons, List.mem_cons] at hu
      rcases hu with rfl | hu
      · exact joined16_lt order a b
      · exact lt_of_mem_units16 order rest u hu

/-! ## UTF-32 -/

/-- The code point of a character as its only unit. -/
def codeUnit (c : Char) : List Nat := [c.toNat]

theorem decodeUnits32_of_beginsNone {us : List Nat} (hne : us ≠ []) (h : BeginsNone codeUnit us)
    (offset : Nat) : decodeUnits32 offset us = .stopped offset .invalidCodePoint := by
  obtain ⟨unit, us, rfl⟩ := List.exists_cons_of_ne_nil hne
  rw [decodeUnits32]
  split
  · next c hc => exact absurd (by rw [codeUnit, Text.toNat_of_charOfCode? hc]; rfl) (h c us)
  · rfl

/-- The unit of four bytes. -/
def joined32 (order : ByteOrder) (a b c d : UInt8) : Nat :=
  match order with
  | .littleEndian => joined16 order a b + 0x10000 * joined16 order c d
  | .bigEndian => 0x10000 * joined16 order a b + joined16 order c d

theorem units32_cons (order : ByteOrder) (a b c d : UInt8) (rest : List UInt8) :
    units32 order (a :: b :: c :: d :: rest) = joined32 order a b c d :: units32 order rest := by
  cases order with
  | littleEndian =>
      simp only [units32, joined32, joined16, List.cons.injEq, and_true]
      omega
  | bigEndian =>
      simp only [units32, joined32, joined16, List.cons.injEq, and_true]
      omega

theorem bytes32_joined (order : ByteOrder) (a b c d : UInt8) :
    bytes32 order (joined32 order a b c d) = [a, b, c, d] := by
  have hab := joined16_lt order a b
  have hcd := joined16_lt order c d
  cases order with
  | littleEndian =>
      have hlow : joined32 .littleEndian a b c d % 0x10000 = joined16 .littleEndian a b := by
        rw [joined32]
        omega
      have hhigh : joined32 .littleEndian a b c d / 0x10000 = joined16 .littleEndian c d := by
        rw [joined32]
        omega
      rw [bytes32, hlow, hhigh, bytes16_joined, bytes16_joined]
      rfl
  | bigEndian =>
      have hlow : joined32 .bigEndian a b c d % 0x10000 = joined16 .bigEndian c d := by
        rw [joined32]
        omega
      have hhigh : joined32 .bigEndian a b c d / 0x10000 = joined16 .bigEndian a b := by
        rw [joined32]
        omega
      rw [bytes32, hlow, hhigh, bytes16_joined, bytes16_joined]
      rfl

theorem flatMap_units32 (order : ByteOrder) :
    ∀ {body : List UInt8}, body.length % 4 = 0 →
      (units32 order body).flatMap (bytes32 order) = body
  | [], _ => rfl
  | [_], h => absurd h (by simp)
  | [_, _], h => absurd h (by simp)
  | [_, _, _], h => absurd h (by simp)
  | a :: b :: c :: d :: rest, h => by
      have hrest : rest.length % 4 = 0 := by
        simp only [List.length_cons] at h
        omega
      rw [units32_cons, List.flatMap_cons, flatMap_units32 order hrest, bytes32_joined]
      rfl

end JsonAxes.Encoding

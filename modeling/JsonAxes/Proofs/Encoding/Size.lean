import JsonAxes.Canonical
import JsonAxes.Proofs.Text.WellEscaped

/-!
# How long canonical text can be

No encoding has characters of less than one byte (`Encoding.length_chars_decode_le`), and the
canonical form of a character is two escapes at most. So the canonical form of a text is at most
twelve times as long as its bytes (`Canonical.length_of_ofBytes`).
-/

set_option autoImplicit false

namespace JsonAxes

namespace Encoding

@[simp] theorem length_chars_cons (c : Char) (d : Decoded) :
    (d.cons c).chars.length = d.chars.length + 1 := rfl

theorem length_chars_allOrNothing_le (d : Decoded) :
    d.allOrNothing.chars.length ≤ d.chars.length := by
  rw [Decoded.allOrNothing]
  split
  · exact Nat.le_refl _
  · exact Nat.zero_le _

theorem length_chars_decodeUtf8_le (offset : Nat) (bytes : List UInt8) :
    (decodeUtf8 offset bytes).chars.length ≤ bytes.length := by
  fun_induction decodeUtf8 offset bytes
  all_goals first
    | exact Nat.zero_le _
    | simp only [List.length_cons, length_chars_cons]; omega

theorem length_units16_le (order : ByteOrder) (bytes : List UInt8) :
    (units16 order bytes).length ≤ bytes.length := by
  fun_induction units16 order bytes
  all_goals first
    | exact Nat.zero_le _
    | simp only [List.length_cons]; omega

theorem length_units32_le (order : ByteOrder) (bytes : List UInt8) :
    (units32 order bytes).length ≤ bytes.length := by
  fun_induction units32 order bytes
  all_goals first
    | exact Nat.zero_le _
    | simp only [List.length_cons]; omega

theorem length_chars_decodeUnits16_le (offset : Nat) (units : List Nat) :
    (decodeUnits16 offset units).chars.length ≤ units.length := by
  fun_induction decodeUnits16 offset units
  all_goals first
    | exact Nat.zero_le _
    | simp only [List.length_cons, length_chars_cons]; omega

theorem length_chars_decodeUnits32_le (offset : Nat) (units : List Nat) :
    (decodeUnits32 offset units).chars.length ≤ units.length := by
  fun_induction decodeUnits32 offset units
  all_goals first
    | exact Nat.zero_le _
    | simp only [List.length_cons, length_chars_cons]; omega

theorem length_chars_decodeUtf16_le (order : ByteOrder) (bytes : List UInt8) :
    (decodeUtf16 order bytes).chars.length ≤ bytes.length := by
  rw [decodeUtf16]
  split
  · exact Nat.le_trans (length_chars_decodeUnits16_le 0 _) (length_units16_le order bytes)
  · exact Nat.zero_le _

theorem length_chars_decodeUtf32_le (order : ByteOrder) (bytes : List UInt8) :
    (decodeUtf32 order bytes).chars.length ≤ bytes.length := by
  rw [decodeUtf32]
  split
  · exact Nat.le_trans (length_chars_decodeUnits32_le 0 _) (length_units32_le order bytes)
  · exact Nat.zero_le _

/-- There are no more characters than bytes. -/
theorem length_chars_decode_le (encoding : Encoding) (bytes : List UInt8) :
    (encoding.decode bytes).chars.length ≤ bytes.length := by
  cases encoding with
  | utf8 =>
      exact Nat.le_trans (length_chars_allOrNothing_le _) (length_chars_decodeUtf8_le 0 bytes)
  | utf16LE => exact length_chars_decodeUtf16_le _ bytes
  | utf16BE => exact length_chars_decodeUtf16_le _ bytes
  | utf32LE => exact length_chars_decodeUtf32_le _ bytes
  | utf32BE => exact length_chars_decodeUtf32_le _ bytes

end Encoding

namespace Canonical

/-- A character is escaped as two units at most. -/
theorem length_charEscape_le (c : Char) : (Text.charEscape c).length ≤ 12 := by
  rw [Text.length_charEscape, Text.units]
  split
  · exact Nat.le_of_lt (show 6 < 12 by decide)
  · exact Nat.le_refl _

theorem length_of_ofCharsFrom {offset backslashes : Nat} {cs form : List Char}
    (h : ofCharsFrom offset backslashes cs = .ok form) : form.length ≤ 12 * cs.length := by
  induction cs generalizing offset backslashes form with
  | nil =>
      cases h
      exact Nat.zero_le _
  | cons c cs ih =>
      rw [ofCharsFrom] at h
      split at h
      · obtain ⟨rest, hrest, rfl⟩ := Text.map_eq_ok_iff.mp h
        have hle := ih hrest
        simp only [List.length_cons]
        omega
      · simp only at h
        split at h
        · cases h
        · obtain ⟨rest, hrest, rfl⟩ := Text.map_eq_ok_iff.mp h
          have hle := ih hrest
          have hescape := length_charEscape_le c
          simp only [List.length_append, List.length_cons]
          omega

/-- The canonical form of a text is at most twelve times as long as its bytes. -/
theorem length_of_ofBytes {bytes : List UInt8} {text : String} (h : ofBytes bytes = .ok text) :
    text.toList.length ≤ 12 * bytes.length := by
  simp only [ofBytes] at h
  split at h
  · cases h
  · next form hform =>
    split at h
    · cases h
      have hchars := Encoding.length_chars_decode_le (Encoding.sniff bytes).1
        (bytes.drop (Encoding.sniff bytes).2)
      have hform := length_of_ofCharsFrom hform
      rw [List.length_drop] at hchars
      rw [String.toList_ofList]
      omega
    · cases h

end Canonical

end JsonAxes

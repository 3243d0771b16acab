import JsonAxes.Proofs.Standard.Exchange
import JsonAxes.Proofs.Standard.Literal

/-!
# The writer of exchange text

The writer in the outer layer writes standard text (`Outer.writesStandard_writer`).
-/

set_option autoImplicit false

namespace JsonAxes

namespace Standard

/-- The digits of a unit. -/
def Digits.ofUnit (unit : Nat) : Digits where
  a := Text.hexDigit (unit / 0x1000 % 16)
  b := Text.hexDigit (unit / 0x100 % 16)
  c := Text.hexDigit (unit / 0x10 % 16)
  d := Text.hexDigit (unit % 16)
  isHexDigit_a := Text.isHexDigit_hexDigit (Nat.mod_lt _ (by decide))
  isHexDigit_b := Text.isHexDigit_hexDigit (Nat.mod_lt _ (by decide))
  isHexDigit_c := Text.isHexDigit_hexDigit (Nat.mod_lt _ (by decide))
  isHexDigit_d := Text.isHexDigit_hexDigit (Nat.mod_lt _ (by decide))

theorem Digits.unit_ofUnit {unit : Nat} (h : unit < 0x10000) :
    (Digits.ofUnit unit).unit = unit := by
  have hread := (Digits.ofUnit unit).hexUnit?_append []
  have hread' := Text.hexUnit?_unitDigits h []
  exact congrArg Prod.fst (Option.some.inj (hread.symm.trans hread'))

/-- The escape of a unit that is a whole character stands for it. -/
theorem Part.standsFor_unit {u : Digits} {c : Char} (h : u.unit = c.toNat) :
    (Part.unit u).StandsFor c := by
  have hchar : charOf u.unit = c := by
    rw [charOf, h, Text.charOfCode?_toNat, Option.getD_some]
  have hpair : ∀ v, ¬ isPair u v = true := by
    intro v
    rw [isPair, h, Text.isHighSurrogate_toNat, Bool.false_and]
    exact Bool.false_ne_true
  intro ps
  rcases ps with _ | ⟨p, ps⟩
  · exact congrArg (· :: []) hchar
  · cases p with
    | plain d hd => exact congrArg (· :: resolved (.plain d hd :: ps)) hchar
    | letter e d hd => exact congrArg (· :: resolved (.letter e d hd :: ps)) hchar
    | unit v => rw [resolved, if_neg (hpair v), hchar]

end Standard

namespace Outer

open Standard Exchange.Writer

/-- What is written for a character is a part of a literal that stands for it. -/
theorem exists_part (c : Char) : ∃ p : Part, p.text = charText c ∧ p.StandsFor c := by
  have hall : ∀ c ∈ ['"', '\\', '\n', '\r', '\t', '\x08', '\x0c'],
      ∃ e, charText c = ['\\', e] ∧ Text.simpleEscape? e = some c :=
    List.forall_iff_forall_mem.mp ⟨⟨'"', rfl, rfl⟩, ⟨'\\', rfl, rfl⟩, ⟨'n', rfl, rfl⟩,
      ⟨'r', rfl, rfl⟩, ⟨'t', rfl, rfl⟩, ⟨'b', rfl, rfl⟩, ⟨'f', rfl, rfl⟩⟩
  by_cases hletter : c ∈ ['"', '\\', '\n', '\r', '\t', '\x08', '\x0c']
  · obtain ⟨e, htext, hc⟩ := hall c hletter
    exact ⟨.letter e c hc, htext.symm, fun _ => rfl⟩
  · simp only [List.mem_cons, List.not_mem_nil, or_false, not_or] at hletter
    obtain ⟨hquote, hslash, hn, hr, ht, hb, hf⟩ := hletter
    have htext : charText c = if c < ' ' then Text.charEscape c else [c] := by
      simp only [charText, if_neg hquote, if_neg hslash, if_neg hn, if_neg hr, if_neg ht, if_neg hb,
        if_neg hf]
    rw [htext]
    by_cases hcontrol : c < ' '
    · have hlt : c.toNat < 0x10000 := Nat.lt_trans hcontrol (by decide)
      refine ⟨.unit (.ofUnit c.toNat), ?_, Part.standsFor_unit (Digits.unit_ofUnit hlt)⟩
      rw [if_pos hcontrol, Text.charEscape, Text.units, if_pos hlt, List.flatMap_singleton]
      rfl
    · rw [if_neg hcontrol]
      exact ⟨.plain c ⟨Char.not_lt.mp hcontrol, hquote, hslash⟩, rfl, fun _ => rfl⟩

theorem charText_of_not_mustEscape {c : Char} (h : ¬ MustEscape c) : charText c = [c] := by
  rw [MustEscape, not_or, not_or] at h
  obtain ⟨hquote, hslash, hcontrol⟩ := h
  have hne : ∀ d : Char, d < ' ' → c ≠ d := by
    rintro d hd rfl
    exact hcontrol hd
  simp only [charText, if_neg hquote, if_neg hslash, if_neg (hne '\n' (by decide)),
    if_neg (hne '\r' (by decide)), if_neg (hne '\t' (by decide)), if_neg (hne '\x08' (by decide)),
    if_neg (hne '\x0c' (by decide)), if_neg hcontrol]

/-- The writer writes standard text. -/
theorem writesStandard_writer : writer.WritesStandard where
  null := rfl
  bool _ := rfl
  integer _ := rfl
  float n h := by
    obtain ⟨x, hx, htext, hnumber⟩ := NumberFormat.exists_numeral .scientific h
    exact ⟨x, hx, htext.symm.trans (if_pos h).symm, hnumber⟩
  nullsNonFinite := writer_nullsNonFinite
  string := ⟨charText, fun _ => rfl, fun c _ => exists_part c,
    fun _ => charText_of_not_mustEscape⟩
  array _ := rfl
  object _ := rfl

end Outer

end JsonAxes

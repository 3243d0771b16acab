import JsonAxes.Proofs.Value.Literal
import JsonAxes.Proofs.Value.Pieces

/-!
# The canonical form of printed text

Whatever the layout, the canonical form of a printed value is the text of the same layout with all
but ASCII escaped (`Layout.becomes_valueText`). Outside string literals all that is printed is
canonical already.
-/

set_option autoImplicit false

namespace JsonAxes.Layout

open Canonical

/-! ## Numbers -/

/-- Numerals are canonical. -/
theorem becomes_text (n : Numeral) : Becomes n.text n.text := by
  have hdigits : ∀ ds : Digits, Becomes ds.chars ds.chars := fun ds =>
    becomes_self fun c hc => isCanonical_of_isDigit (ds.isDigit c hc)
  have hsign : ∀ sign?, Becomes (Numeral.signText sign?) (Numeral.signText sign?) := by
    intro sign?
    rcases sign? with _ | _ | _
    · exact becomes_nil
    · exact becomes_of_all rfl
    · exact becomes_of_all rfl
  have hnegative : Becomes (if n.negative then ['-'] else [])
      (if n.negative then ['-'] else []) := by
    split
    · exact becomes_of_all rfl
    · exact becomes_nil
  refine hnegative.append ((hdigits n.whole).append (.append ?_ ?_))
  · cases n.fraction? with
    | none => exact becomes_nil
    | some ds =>
        have hpoint : Becomes ['.'] ['.'] := becomes_of_all rfl
        exact hpoint.append (hdigits ds)
  · cases n.exponent? with
    | none => exact becomes_nil
    | some x =>
        have hletter : Becomes [x.letter] [x.letter] := by
          rcases x.isLetter with h | h <;> rw [h] <;> exact becomes_of_all rfl
        exact hletter.append ((hsign x.sign?).append (hdigits x.digits))

theorem becomes_numberText (n : Number) : Becomes (numberText n) (numberText n) := by
  rw [numberText]
  split
  · next h =>
    obtain ⟨x, -, hx, -⟩ := NumberFormat.exists_numeral .plain h
    rw [hx]
    exact becomes_text x
  · exact becomes_of_all rfl

/-! ## Values -/

theorem becomes_blank {cs : List Char} (h : ∀ c ∈ cs, c = '\n' ∨ c = ' ') : Becomes cs cs := by
  refine becomes_self fun c hc => ?_
  rcases h c hc with rfl | rfl
  · exact ⟨rfl, by decide⟩
  · exact ⟨rfl, by decide⟩

theorem slotText_ascii (l : Layout) (depth : Nat) (slot : Slot) :
    l.ascii.slotText depth slot = l.slotText depth slot := by
  cases slot <;> rfl

theorem becomes_signText (l : Layout) (s : Sign) : Becomes (l.signText s) (l.ascii.signText s) := by
  cases s with
  | string s => exact becomes_stringText l s
  | number n => exact becomes_numberText n
  | bool b => cases b <;> exact becomes_of_all rfl
  | _ => exact becomes_of_all rfl

/-- The canonical form of a printed value is what is printed with all but ASCII escaped. -/
theorem becomes_valueText (l : Layout) (depth : Nat) (v : Value) :
    Becomes (l.valueText depth v) (l.ascii.valueText depth v) := by
  rw [valueText_eq_flatMap, valueText_eq_flatMap]
  apply becomes_flatMap
  intro p _
  rw [pieceText, pieceText, slotText_ascii]
  exact (becomes_blank fun _ => mem_slotText).append (becomes_signText l p.sign)

end JsonAxes.Layout

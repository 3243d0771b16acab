/-!
# Spans

A span is a stretch of text, given by the byte offsets of its two ends. Every token and every
error points into its text by a span. A span made by `ofBounds?` or `point` has its ends in order;
a span written out by hand may not, and its length is then zero.
-/

set_option autoImplicit false

namespace JsonAxes

/-- A stretch of text, from byte offset `lo` up to byte offset `hi`. -/
structure Span where
  lo : Nat
  hi : Nat
  deriving DecidableEq, Repr, Inhabited

namespace Span

/-- The span between two offsets; there is none if they are out of order. -/
def ofBounds? (lo hi : Nat) : Option Span :=
  if lo ≤ hi then some ⟨lo, hi⟩ else none

/-- What is said of two offsets that bound no span. -/
def outOfOrderMessage : String := "`lo` must not be larger than `hi`"

/-- The empty span at an offset. -/
def point (offset : Nat) : Span := ⟨offset, offset⟩

/-- The number of bytes covered. -/
def length (s : Span) : Nat := s.hi - s.lo

/-- Whether no byte is covered. -/
def isEmpty (s : Span) : Bool := s.lo == s.hi

end Span

end JsonAxes

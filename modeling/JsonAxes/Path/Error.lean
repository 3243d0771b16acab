import JsonAxes.Path.Axis
import JsonAxes.Span

/-!
# Errors of reading paths

A text that does not have the form of a path is refused as a whole. A text that has it may still ask
for what there is not, and then the error points at the place.
-/

set_option autoImplicit false

namespace JsonAxes

/-- Why a text could not be read as a path. -/
inductive PathError where
  /-- The text does not have the form of a path. -/
  | malformed
  /-- A step has a second predicate. -/
  | extraPredicate (span : Span)
  /-- There is no axis of this name; perhaps another was meant. -/
  | unknownAxis (name : String) (span : Span) (suggestion? : Option String)
  /-- A node test that is none; written with its parentheses. -/
  | unsupportedTest (test : String) (span : Span)
  deriving DecidableEq, Repr

namespace PathError

/-- The wording of an error. -/
def message : PathError → String
  | malformed => "invalid path expression"
  | extraPredicate _ => "a step takes at most one predicate"
  | unknownAxis name .. => "unknown axis `" ++ name ++ "`"
  | unsupportedTest test _ => "unsupported node test `" ++ test ++ "`"

/-- Where in the text the error lies, if it lies in one place. -/
def span? : PathError → Option Span
  | malformed => none
  | extraPredicate span => some span
  | unknownAxis _ span _ => some span
  | unsupportedTest _ span => some span

end PathError

end JsonAxes

import JsonAxes.Path.Error
import JsonAxes.Path.Surface
import JsonAxes.Text.EditDistance

/-!
# Reading paths

A text is read as a surface path first, and refused if it does not have that form. Then the steps
are expanded from left to right: a double slash becomes a step of its own, axis names are looked
up, tests are checked, and names are entered into the path's table. The first step that cannot be
expanded is the error, and within it the axis comes before the test and the test before the
predicates.
-/

set_option autoImplicit false

namespace JsonAxes

namespace Surface

/-- How far an axis name may be from the one that is suggested for it. -/
def suggestionLimit : Nat := 3

/-- The axis of a step. -/
def Step.resolveAxis (s : Step) : Except PathError Axis :=
  match s.axis with
  | .implied axis => .ok axis
  | .named name =>
    match Axis.ofName? name with
    | some axis => .ok axis
    | none => .error (.unknownAxis name s.axisSpan
        (Text.bestMatch? suggestionLimit name Axis.names))

/-- Checks the test of a step: the only function is `node`. -/
def Step.checkTest (s : Step) : Except PathError Unit :=
  match s.test with
  | .function name =>
    if name = "node" then .ok () else .error (.unsupportedTest (name ++ "()") s.testSpan)
  | _ => .ok ()

/-- The position of a step, which has at most one. -/
def Step.resolvePosition (s : Step) : Except PathError (Option Nat) :=
  match s.predicates with
  | [] => .ok none
  | [(n, _)] => .ok (some n)
  | _ :: (_, span) :: _ => .error (.extraPredicate span)

/-- Appends a step to a path. -/
def Step.expandOnto (s : Step) (p : Path) : Except PathError Path := do
  let axis ← s.resolveAxis
  s.checkTest
  let position ← s.resolvePosition
  return match s.test with
    | .wildcard => p.push axis .wildcard position
    | .function _ => p.push axis .node position
    | .name name => p.pushName axis name position

/-- What a separator adds to a path in front of the step it precedes. -/
def Separator.expandOnto (s : Separator) (p : Path) : Path :=
  match s with
  | .child => p
  | .deep => p.push .descendantOrSelf .node none

/-- The path that a surface path stands for. -/
def expand (s : Surface) : Except PathError Path :=
  s.steps.foldlM (fun p (separator, step) => step.expandOnto (separator.expandOnto p))
    ⟨s.leading?.isSome, [], .empty⟩

end Surface

/-- The path that a text spells. -/
def Path.ofText? (text : String) : Except PathError Path :=
  match Surface.ofText? text with
  | none => .error .malformed
  | some surface => surface.expand

/-- A text with the form of a path spells what the form stands for. -/
theorem Path.ofText?_of_surface {text : String} {surface : Surface}
    (h : Surface.ofText? text = some surface) : Path.ofText? text = surface.expand := by
  delta Path.ofText?
  rw [h]

end JsonAxes

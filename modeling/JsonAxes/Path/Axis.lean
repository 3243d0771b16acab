/-!
# Axes

The thirteen axes along which a step of a path looks for nodes.
-/

set_option autoImplicit false

namespace JsonAxes

/-- A direction in which nodes are looked for. -/
inductive Axis where
  | ancestor
  | ancestorOrSelf
  | attributes
  | child
  | descendant
  | descendantOrSelf
  | following
  | followingSibling
  | namespaces
  | parent
  | preceding
  | precedingSibling
  | self
  deriving DecidableEq, Repr

namespace Axis

/-- All axes, in alphabetical order of their names. -/
def all : List Axis :=
  [.ancestor, .ancestorOrSelf, .attributes, .child, .descendant, .descendantOrSelf, .following,
    .followingSibling, .namespaces, .parent, .preceding, .precedingSibling, .self]

/-- The name of an axis in a path. -/
def name : Axis → String
  | ancestor => "ancestor"
  | ancestorOrSelf => "ancestor-or-self"
  | attributes => "attribute"
  | child => "child"
  | descendant => "descendant"
  | descendantOrSelf => "descendant-or-self"
  | following => "following"
  | followingSibling => "following-sibling"
  | namespaces => "namespace"
  | parent => "parent"
  | preceding => "preceding"
  | precedingSibling => "preceding-sibling"
  | self => "self"

/-- The names of all axes. -/
def names : List String := all.map name

/-- The axis of a name. -/
def ofName? (text : String) : Option Axis := all.find? fun a => a.name == text

/-- Every axis is found by its name. -/
theorem ofName?_name (a : Axis) : ofName? a.name = some a := by
  cases a <;> decide

end Axis

end JsonAxes

import JsonAxes.Tree.Basic
import JsonAxes.Value.Basic

/-!
# Documents as trees

A value is a tree of the values in it. A member of an object is tagged with its key, and every
other value with the name of its kind. A container has two attributes made up for it: its size,
and whether it is empty. Nodes do not know their parents.
-/

set_option autoImplicit false

namespace JsonAxes

/-- An attribute of a container. -/
inductive Attribute where
  /-- The number of members or elements. -/
  | size (n : Nat)
  /-- Whether there are none. -/
  | empty (b : Bool)
  deriving DecidableEq, Repr

/-- A node of a document. -/
inductive Node where
  /-- A value, with its key if it is a member of an object. -/
  | value (key? : Option String) (v : Value)
  | attr (a : Attribute)

namespace Attribute

/-- The name of an attribute. -/
def name : Attribute → String
  | size _ => "size"
  | empty _ => "empty"

/-- An attribute as a value. -/
def toValue : Attribute → Value
  | size n => .number (.ofNat n)
  | empty b => .bool b

end Attribute

namespace Node

/-- The root of a document. -/
def root (v : Value) : Node := value none v

/-- The value of a node; an attribute has none. -/
def value? : Node → Option Value
  | value _ v => some v
  | attr _ => none

/-- The key of a member. -/
def key? : Node → Option String
  | value key? _ => key?
  | attr _ => none

/-- A node as a value. -/
def toValue : Node → Value
  | value _ v => v
  | attr a => a.toValue

/-- What node tests compare with. -/
def tag : Node → String
  | value (some key) _ => key
  | value none v => v.kind.name
  | attr a => a.name

/-- The children of a value. -/
def childrenOf : Value → List Node
  | .object ms => ms.map fun (k, v) => value (some k) v
  | .array vs => vs.map (value none)
  | _ => []

/-- The children of a node. -/
def children (n : Node) : List Node := (n.value?.map childrenOf).getD []

/-- The attribute of a node that has a given name. -/
def attribute? (n : Node) (name : String) : Option Node := do
  let size ← (← n.value?).size?
  if name = "size" then some (attr (.size size))
  else if name = "empty" then some (attr (.empty (size == 0)))
  else none

/-- The names of a node's attributes. -/
def attributeNames (n : Node) : List String :=
  match n.value? with
  | some v => if v.isContainer then ["size", "empty"] else []
  | none => []

/-- Documents as a tree. -/
def tree : Tree Node where
  tag := tag
  children := children
  knowsParents := false
  parent? _ := none
  hasAttributes := true
  attribute? := attribute?
  attributeNames := attributeNames

end Node

namespace Value

mutual

/-- The number of values in a value, itself included. -/
def count : Value → Nat
  | .object ms => countMembers ms + 1
  | .array vs => countElements vs + 1
  | _ => 1

/-- The number of values in some members. -/
def countMembers : List (String × Value) → Nat
  | [] => 0
  | (_, v) :: rest => count v + countMembers rest

/-- The number of values in some elements. -/
def countElements : List Value → Nat
  | [] => 0
  | v :: rest => count v + countElements rest

end

end Value

/-- The number of values at and below a node. -/
def Node.count (n : Node) : Nat := (n.value?.map Value.count).getD 0

/-- The number of values at and below some nodes. -/
def Node.countAll : List Node → Nat
  | [] => 0
  | n :: rest => n.count + countAll rest

/-- The number of the value at a place when the values of the document are counted in pre-order,
the root being zero. Attributes are not counted. -/
def Place.number? : Place Node → Option Nat
  | .root _ => some 0
  | .within _ none _ => none
  | .within owner (some index) _ => owner.number?.map fun above =>
    above + 1 + Node.countAll (owner.node.children.take index)

end JsonAxes

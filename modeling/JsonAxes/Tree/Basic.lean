/-!
# Trees

What a search needs to know of a tree: the tag and the children of a node, and, if the tree has
them, links to parents and attributes. Nothing forces the links to be consistent: a node may have
several parents, or be its own descendant.

A *place* is a node together with the way it was reached: as the start of a search, or as a child
or attribute of the node at another place. The way up from a place leads back along it; only above
the start does it follow the tree's own links.
-/

set_option autoImplicit false

namespace JsonAxes

universe u

/-- A tree, or whatever has children, with nodes in `N`. -/
structure Tree (N : Type u) where
  /-- The name that node tests compare with. -/
  tag : N → String
  /-- The children in order. -/
  children : N → List N
  /-- Whether a node can be asked for its parent. -/
  knowsParents : Bool
  /-- The parent of a node, if the tree knows it. -/
  parent? : N → Option N
  /-- Whether nodes have attributes at all. -/
  hasAttributes : Bool
  /-- The attribute of a node that has a given name. -/
  attribute? : N → String → Option N
  /-- The names of a node's attributes in order. -/
  attributeNames : N → List String

/-- A node and the way it was reached. -/
inductive Place (N : Type u) where
  /-- The start of a search, or a node above it. -/
  | root (node : N)
  /-- A child, with its index among the children, or an attribute, without one. -/
  | within (owner : Place N) (index? : Option Nat) (node : N)

namespace Place

variable {N : Type u}

/-- The node at a place. -/
def node : Place N → N
  | root n => n
  | within _ _ n => n

/-- The place above. -/
def up? (T : Tree N) : Place N → Option (Place N)
  | root n => if T.knowsParents then (T.parent? n).map root else none
  | within owner _ _ => some owner

/-- The place of a child of the node at a place. -/
def child (owner : Place N) (index : Nat) (node : N) : Place N := within owner (some index) node

/-- The place of an attribute of the node at a place. -/
def attr (owner : Place N) (node : N) : Place N := within owner none node

end Place

end JsonAxes

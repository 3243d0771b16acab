import JsonAxes.Tree.Basic

/-!
# Node tables

A tree given as a table: each row has a tag, a parent, children and attributes, all of them by the
number of their row. The links may disagree with each other and may form cycles. A number without
a row stands for a node without a tag, children or anything else.
-/

set_option autoImplicit false

namespace JsonAxes

/-- A row of a node table. -/
structure NodeRow where
  tag : String
  parent? : Option Nat
  children : List Nat
  /-- Names of attributes with their nodes; a name may have none. -/
  attributes : List (String × Option Nat)
  deriving DecidableEq, Repr, Inhabited

/-- A table of nodes and what of it a search may use. -/
structure NodeTable where
  rows : Array NodeRow
  knowsParents : Bool
  hasAttributes : Bool
  /-- Whether nodes answer with their parents and attributes at all. -/
  hasLinks : Bool

namespace NodeTable

/-- The row of a node. -/
def row (t : NodeTable) (n : Nat) : NodeRow := t.rows[n]?.getD ⟨"", none, [], []⟩

/-- The attribute entries of a node. -/
def entries (t : NodeTable) (n : Nat) : List (String × Option Nat) :=
  if t.hasLinks then (t.row n).attributes else []

/-- The table as a tree; of several attributes of one name the first counts. -/
def tree (t : NodeTable) : Tree Nat where
  tag n := (t.row n).tag
  children n := (t.row n).children
  knowsParents := t.knowsParents
  parent? n := if t.hasLinks then (t.row n).parent? else none
  hasAttributes := t.hasAttributes
  attribute? n name := ((t.entries n).find? fun entry => entry.1 == name).bind Prod.snd
  attributeNames n := (t.entries n).map Prod.fst

end NodeTable

end JsonAxes

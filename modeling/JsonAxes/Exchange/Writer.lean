import JsonAxes.Exchange.Basic

/-!
# Writers

What is written of a value need not be text. A writer says what becomes of each kind of value, given
what became of the elements or members in it. A value can be written as it is (`Value.writtenBy`),
where numbers that are not finite are left to the writer, or once it was exchanged
(`Exchange.writtenBy`).
-/

set_option autoImplicit false

namespace JsonAxes

namespace Exchange

/-- What becomes of each kind of value. -/
structure Writer (α : Type) where
  null : α
  bool : Bool → α
  integer : Int → α
  float : Number → α
  string : String → α
  array : List α → α
  object : List (String × α) → α

namespace Writer

/-- What becomes of a number. -/
def number {α : Type} (w : Writer α) (n : Number) : α :=
  match integerOf? n with
  | some i => w.integer i
  | none => w.float n

end Writer

mutual

/-- What a writer makes of an exchange value. -/
def writtenBy {α : Type} (w : Writer α) : Exchange → α
  | null => w.null
  | bool b => w.bool b
  | integer i => w.integer i
  | float n => w.float n
  | string s => w.string s
  | array vs => w.array (elementsWrittenBy w vs)
  | object ms => w.object (membersWrittenBy w ms)

/-- What a writer makes of elements. -/
def elementsWrittenBy {α : Type} (w : Writer α) : List Exchange → List α
  | [] => []
  | v :: rest => writtenBy w v :: elementsWrittenBy w rest

/-- What a writer makes of members. -/
def membersWrittenBy {α : Type} (w : Writer α) : List (String × Exchange) → List (String × α)
  | [] => []
  | (k, v) :: rest => (k, writtenBy w v) :: membersWrittenBy w rest

end

end Exchange

namespace Value

open Exchange

mutual

/-- What a writer makes of a value. -/
def writtenBy {α : Type} (w : Writer α) : Value → α
  | .null => w.null
  | .bool b => w.bool b
  | .number n => w.number n
  | .string s => w.string s
  | .array vs => w.array (elementsWrittenBy w vs)
  | .object ms => w.object (membersWrittenBy w ms)

/-- What a writer makes of elements. -/
def elementsWrittenBy {α : Type} (w : Writer α) : List Value → List α
  | [] => []
  | v :: rest => writtenBy w v :: elementsWrittenBy w rest

/-- What a writer makes of members. -/
def membersWrittenBy {α : Type} (w : Writer α) : List (String × Value) → List (String × α)
  | [] => []
  | (k, v) :: rest => (k, writtenBy w v) :: membersWrittenBy w rest

end

end Value

end JsonAxes

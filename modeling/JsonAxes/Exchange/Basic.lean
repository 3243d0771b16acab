import JsonAxes.Value.Basic

/-!
# Exchange values

Other programs exchange JSON by the letter of the standard, and keep whole numbers apart from
others. An exchange value is a value in that form. Numbers that are not finite have no place in
it and become null; a whole number within the range in which every integer has its own number
becomes an integer, so that one stays `1` and does not turn into `1.0`. What is lost on the way
there and back (`ofValue`, `toValue`) is no more than that and the sign of a zero.

The programs themselves lie outside: what they write of a value is up to a writer
(`Exchange.Writer`), and what they make of a text up to a reader, of which no more is known than
what `Exchange.Writer.WritesStandard` and `Exchange.ReadsStandard` say.
-/

set_option autoImplicit false

namespace JsonAxes

/-- A value as other programs exchange it. -/
inductive Exchange where
  | null
  | bool (b : Bool)
  | integer (i : Int)
  | float (n : Number)
  | string (text : String)
  | array (elements : List Exchange)
  | object (members : List (String × Exchange))
  deriving Inhabited

namespace Exchange

/-- Up to this size every integer is a number of its own. -/
def integerLimit : Nat := 0x20000000000000

/-- The integer as which a number is exchanged. -/
def integerOf? (n : Number) : Option Int :=
  n.toInt?.filter fun i => i.natAbs ≤ integerLimit

/-- A number for exchange. -/
def ofNumber (n : Number) : Exchange :=
  match integerOf? n with
  | some i => integer i
  | none => if n.isFinite then float n else null

mutual

/-- A value for exchange. -/
def ofValue : Value → Exchange
  | .string s => string s
  | .number n => ofNumber n
  | .bool b => bool b
  | .null => null
  | .object ms => object (ofMembers ms)
  | .array vs => array (ofElements vs)

/-- Members for exchange. -/
def ofMembers : List (String × Value) → List (String × Exchange)
  | [] => []
  | (k, v) :: rest => (k, ofValue v) :: ofMembers rest

/-- Elements for exchange. -/
def ofElements : List Value → List Exchange
  | [] => []
  | v :: rest => ofValue v :: ofElements rest

end

mutual

/-- The value that was exchanged. -/
def toValue : Exchange → Value
  | string s => .string s
  | integer i => .number (.ofInt i)
  | float n => .number n
  | bool b => .bool b
  | null => .null
  | object ms => .object (toMembers ms)
  | array vs => .array (toElements vs)

/-- The members that were exchanged. -/
def toMembers : List (String × Exchange) → List (String × Value)
  | [] => []
  | (k, v) :: rest => (k, toValue v) :: toMembers rest

/-- The elements that were exchanged. -/
def toElements : List Exchange → List Value
  | [] => []
  | v :: rest => toValue v :: toElements rest

end

end Exchange

end JsonAxes

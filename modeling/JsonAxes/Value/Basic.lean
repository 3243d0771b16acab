import JsonAxes.Number.Decimal
import JsonAxes.Value.Members

/-!
# Values

A JSON value: a scalar, or a container of values. The members of an object are ordered, but two
objects are the same (`Value.same`) if they have the same members in any order, and two numbers if
they are equal as numbers.
-/

set_option autoImplicit false

namespace JsonAxes

/-- A JSON value. -/
inductive Value where
  | string (text : String)
  | number (n : Number)
  | bool (b : Bool)
  | null
  | object (members : List (String × Value))
  | array (elements : List Value)
  deriving Inhabited

/-- The six kinds of values. -/
inductive Value.Kind where
  | string
  | number
  | bool
  | null
  | object
  | array
  deriving DecidableEq, Repr

/-- The name of a kind. -/
def Value.Kind.name : Value.Kind → String
  | string => "string"
  | number => "number"
  | bool => "bool"
  | null => "null"
  | object => "object"
  | array => "array"

namespace Value

/-- The kind of a value. -/
def kind : Value → Kind
  | string _ => .string
  | number _ => .number
  | bool _ => .bool
  | null => .null
  | object _ => .object
  | array _ => .array

/-- The object that a list of members describes, a later one overriding an earlier one. -/
def ofMembers (members : List (String × Value)) : Value := object (Members.ofList members)

/-! ## What a value holds -/

def isNull : Value → Bool
  | null => true
  | _ => false

def isContainer : Value → Bool
  | object _ => true
  | array _ => true
  | _ => false

def string? : Value → Option String
  | string s => some s
  | _ => none

def number? : Value → Option Number
  | number n => some n
  | _ => none

def bool? : Value → Option Bool
  | bool b => some b
  | _ => none

def members? : Value → Option (Members Value)
  | object ms => some ms
  | _ => none

def elements? : Value → Option (List Value)
  | array vs => some vs
  | _ => none

/-- The member of an object at a key. -/
def get? (key : String) (v : Value) : Option Value := v.members?.bind (Members.get? key)

/-- The element of an array at an index. -/
def at? (index : Nat) (v : Value) : Option Value := v.elements?.bind (·[index]?)

/-- The number of children of a container. -/
def size? : Value → Option Nat
  | object ms => some ms.length
  | array vs => some vs.length
  | _ => none

/-! ## Sameness -/

mutual

/-- Whether two values are equal, the order of members aside. -/
def same : Value → Value → Bool
  | string s, string t => s == t
  | number m, number n => m.same n
  | bool a, bool b => a == b
  | null, null => true
  | object ms, object ns => ms.length == ns.length && sameMembers ms ns
  | array vs, array ws => sameElements vs ws
  | _, _ => false

/-- Whether each of the members is among some others. -/
def sameMembers : List (String × Value) → List (String × Value) → Bool
  | [], _ => true
  | (k, v) :: rest, ns =>
    (match Members.get? k ns with
      | some w => same v w
      | none => false) && sameMembers rest ns

/-- Whether two lists have the same elements in order. -/
def sameElements : List Value → List Value → Bool
  | [], [] => true
  | v :: vs, w :: ws => same v w && sameElements vs ws
  | _, _ => false

end

end Value

end JsonAxes

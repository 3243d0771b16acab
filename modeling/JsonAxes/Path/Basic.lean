import JsonAxes.Path.Axis
import JsonAxes.Path.Names
import JsonAxes.Text.CharClass

/-!
# Paths

A path is a sequence of steps. Each step names an axis, a test that nodes have to pass, and
perhaps a position: then only the node at that position among those that pass is taken. A path
that is absolute was written with a separator in front, and says so when it is written again;
nothing else depends on it.

`Path.display` writes a path in the verbose form.
-/

set_option autoImplicit false

namespace JsonAxes

/-- What a step asks of a node. -/
inductive NodeTest where
  /-- Nothing; written `*`. -/
  | wildcard
  /-- Nothing; written `node()`. -/
  | node
  /-- That its tag be the name with this number. -/
  | name (id : Nat)
  deriving DecidableEq, Repr

/-- One step of a path. -/
structure Step where
  axis : Axis
  test : NodeTest
  /-- The position that is taken, counted from one. -/
  position? : Option Nat
  deriving DecidableEq, Repr

/-- A path through a tree. -/
structure Path where
  absolute : Bool
  steps : List Step
  names : NameTable
  deriving DecidableEq, Repr

namespace Path

/-- The relative path without steps. -/
def empty : Path := ⟨false, [], .empty⟩

/-- A path with one more step, whose test is not a name. -/
def push (p : Path) (axis : Axis) (test : NodeTest) (position? : Option Nat) : Path :=
  { p with steps := p.steps ++ [⟨axis, test, position?⟩] }

/-- A path with one more step, whose test is a name. -/
def pushName (p : Path) (axis : Axis) (name : String) (position? : Option Nat) : Path :=
  let (id, names) := p.names.intern name
  { p with steps := p.steps ++ [⟨axis, .name id, position?⟩], names }

/-- A path with one more step, whose test is given as text. -/
def step (p : Path) (axis : Axis) (test : String) : Path :=
  if test = "*" then p.push axis .wildcard none
  else if test = "node()" then p.push axis .node none
  else p.pushName axis test none

/-- A path whose last step takes one position only. Without steps it stays as it is. -/
def nth (p : Path) (n : Nat) : Path :=
  match p.steps.getLast? with
  | none => p
  | some last => { p with steps := p.steps.dropLast ++ [{ last with position? := some n }] }

/-- Whether two paths are equal: in their leading separator, their steps with the numbers of
their names, and the names in their tables. -/
def same (p q : Path) : Bool :=
  p.absolute == q.absolute && p.steps == q.steps && p.names.sameNames q.names

/-! ## Writing -/

/-- Whether a character may stand in a name without quotes. -/
def isNameChar (c : Char) : Bool := Text.isAlphanumeric c || c == '_' || c == '-'

/-- A name, in quotes if it needs them: single ones if it has a double one in it. -/
def nameText (name : String) : List Char :=
  let cs := name.toList
  if !cs.isEmpty && cs.all isNameChar then cs
  else if cs.contains '"' then '\'' :: (cs ++ ['\''])
  else '"' :: (cs ++ ['"'])

/-- A test. -/
def testText (names : NameTable) : NodeTest → List Char
  | .wildcard => ['*']
  | .node => "node()".toList
  | .name id => nameText ((names.resolve? id).getD "")

/-- A position in brackets. -/
def positionText : Option Nat → List Char
  | none => []
  | some n => '[' :: (Nat.toDigits 10 n ++ [']'])

/-- A step. -/
def stepText (names : NameTable) (s : Step) : List Char :=
  s.axis.name.toList ++ (':' :: ':' :: (testText names s.test ++ positionText s.position?))

/-- Steps, each with a separator in front. -/
def stepsText (names : NameTable) (steps : List Step) : List Char :=
  steps.flatMap fun s => '/' :: stepText names s

/-- The text of a path. -/
def text (p : Path) : List Char :=
  match p.steps with
  | [] => if p.absolute then ['/'] else ['.']
  | s :: rest =>
    (if p.absolute then ['/'] else []) ++ stepText p.names s ++ stepsText p.names rest

/-- A path written out. -/
def display (p : Path) : String := String.ofList p.text

end Path

end JsonAxes

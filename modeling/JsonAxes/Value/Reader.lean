import JsonAxes.Canonical
import JsonAxes.Text.Escape
import JsonAxes.Token.Lexer
import JsonAxes.Value.Basic

/-!
# Reading values

A value is read from tokens one token at a time. What has been read so far is a `Reader`: the
containers that are open, innermost first, and what may come next. A scalar or a closed container
goes into the innermost open container; when there is none it is the result. The number of open
containers is the length of a list, so the nesting limit needs no counter.

`Value.ofTokens?`, `ofText?` and `ofBytes?` read a whole list of tokens, a text and a byte
string.
-/

set_option autoImplicit false

namespace JsonAxes

/-- A container that is open, waiting for one more value. -/
inductive OpenContainer where
  /-- An array with the elements before that value, the latest first. -/
  | array (before : List Value)
  /-- An object with the members before that value, and the key it is for. -/
  | object (before : Members Value) (key : String)

/-- What has been read, by what comes next. The containers that stay open around it come last,
innermost first. -/
inductive Reader where
  /-- A value has to come. -/
  | value (outer : List OpenContainer)
  /-- An array was opened: a value or the closing bracket. -/
  | firstElement (outer : List OpenContainer)
  /-- Behind an element: a comma or the closing bracket. The elements are the latest first. -/
  | afterElement (elements : List Value) (outer : List OpenContainer)
  /-- An object was opened: a key or the closing bracket. -/
  | firstKey (outer : List OpenContainer)
  /-- Behind a comma in an object: a key. -/
  | nextKey (members : Members Value) (outer : List OpenContainer)
  /-- Behind a key: a colon. -/
  | colon (members : Members Value) (key : String) (outer : List OpenContainer)
  /-- Behind a member: a comma or the closing bracket. -/
  | afterMember (members : Members Value) (outer : List OpenContainer)
  /-- Nothing more. -/
  | done (v : Value)

namespace Reader

open Token

/-- Before the first token. -/
def start : Reader := .value []

/-- A value is complete: it goes into the innermost open container. -/
def complete (v : Value) : List OpenContainer → Reader
  | [] => .done v
  | .array before :: outer => .afterElement (v :: before) outer
  | .object before key :: outer => .afterMember (before.set key v) outer

/-! ## Scalars -/

/-- The text of a string token. Its body begins one byte behind the opening quote. -/
def stringOf (t : Token) : Except ReadError String :=
  (Text.unescape (t.span.lo + 1) t.text.toList).map String.ofList

/-- The number of a number token. -/
def numberOf (t : Token) : Except ReadError Number :=
  match Number.ofText? t.text.toList with
  | none => .error (.unknownToken t.text t.span)
  | some n => if n.isFinite then .ok n else .error (.numberOutOfRange t.text t.span)

/-- The truth value of a boolean token. -/
def boolOf (t : Token) : Except ReadError Bool :=
  if t.text = "true" then .ok true
  else if t.text = "false" then .ok false
  else .error (.unknownIdentifier t.text t.span)

/-- Checks the text of a null token. -/
def nullOf (t : Token) : Except ReadError Unit :=
  if t.text = "null" then .ok () else .error (.unknownIdentifier t.text t.span)

/-! ## One token -/

/-- Opens a container, unless as many as are allowed are open. -/
def enter (limit : Nat) (t : Token) (outer : List OpenContainer) (inside : Reader) :
    Except ReadError Reader :=
  if outer.length < limit then .ok inside else .error (.nestingTooDeep limit t.span)

/-- Takes a token that begins a value; there is no result if the token begins none. -/
def beginValue? (limit : Nat) (t : Token) (outer : List OpenContainer) :
    Option (Except ReadError Reader) :=
  match t.kind with
  | .string => some ((stringOf t).map fun s => complete (.string s) outer)
  | .number => some ((numberOf t).map fun n => complete (.number n) outer)
  | .bool => some ((boolOf t).map fun b => complete (.bool b) outer)
  | .null => some ((nullOf t).map fun _ => complete .null outer)
  | .objectOpen => some (enter limit t outer (.firstKey outer))
  | .arrayOpen => some (enter limit t outer (.firstElement outer))
  | _ => none

/-- The error of finding something that is not what comes next. -/
def refuse (r : Reader) (got : String) (span : Span) : ReadError :=
  match r with
  | .value _ => .expectedValue got span
  | .firstElement _ => .expected Kind.arrayClose.description got span
  | .afterElement .. => .expected Kind.arrayClose.description got span
  | .firstKey _ => .expected Kind.objectClose.description got span
  | .nextKey .. => .expected "string key" got span
  | .colon .. => .expected Kind.colon.description got span
  | .afterMember .. => .expected Kind.objectClose.description got span
  | .done _ => .expected "end of input" got span

/-- Takes a token. -/
def step (limit : Nat) (r : Reader) (t : Token) : Except ReadError Reader :=
  let refused := .error (r.refuse t.display t.span)
  match r with
  | .value outer => (beginValue? limit t outer).getD refused
  | .firstElement outer =>
    if t.kind = .arrayClose then .ok (complete (.array []) outer)
    else (beginValue? limit t (.array [] :: outer)).getD refused
  | .afterElement elements outer =>
    if t.kind = .comma then .ok (.value (.array elements :: outer))
    else if t.kind = .arrayClose then .ok (complete (.array elements.reverse) outer)
    else refused
  | .firstKey outer =>
    if t.kind = .string then (stringOf t).map fun key => .colon [] key outer
    else if t.kind = .objectClose then .ok (complete (.object []) outer)
    else refused
  | .nextKey members outer =>
    if t.kind = .string then (stringOf t).map fun key => .colon members key outer
    else refused
  | .colon members key outer =>
    if t.kind = .colon then .ok (.value (.object members key :: outer)) else refused
  | .afterMember members outer =>
    if t.kind = .comma then .ok (.nextKey members outer)
    else if t.kind = .objectClose then .ok (complete (.object members) outer)
    else refused
  | .done _ => refused

/-- Takes tokens one after another, up to the first error. -/
def run (limit : Nat) (r : Reader) : List Token → Except ReadError Reader
  | [] => .ok r
  | t :: rest => (r.step limit t).bind fun r' => r'.run limit rest

/-- The value, if nothing is missing; `last` is where the tokens end. -/
def finish (r : Reader) (last : Nat) : Except ReadError Value :=
  match r with
  | .done v => .ok v
  | r => .error (r.refuse "end of input" (.point last))

theorem run_cons (limit : Nat) (r : Reader) (t : Token) (rest : List Token) :
    r.run limit (t :: rest) = (r.step limit t).bind fun r' => r'.run limit rest := rfl

theorem run_append (limit : Nat) (r : Reader) (ts us : List Token) :
    r.run limit (ts ++ us) = (r.run limit ts).bind fun r' => r'.run limit us := by
  induction ts generalizing r with
  | nil => rfl
  | cons t rest ih =>
    simp only [List.cons_append, run_cons]
    cases r.step limit t with
    | error e => rfl
    | ok r' => exact ih r'

end Reader

namespace Value

/-- The number of containers that may be open at once, unless another is given. -/
def defaultNesting : Nat := 512

/-- The value that a list of tokens spells, with at most `limit` containers open at once. -/
def ofTokens? (limit : Nat) (tokens : List Token) : Except ReadError Value :=
  (Reader.start.run limit tokens).bind fun r =>
    r.finish ((tokens.getLast?.map (·.span.hi)).getD 0)

/-- The value that a canonical text spells. -/
def ofCanonical? (limit : Nat) (text : String) : Except ReadError Value :=
  (Token.lex text).bind (ofTokens? limit)

/-- The value that a text spells. -/
def ofText? (limit : Nat) (text : String) : Except ReadError Value :=
  (Canonical.ofText text).bind (ofCanonical? limit)

/-- The value that some bytes spell, in the encoding they appear to be in. -/
def ofBytes? (limit : Nat) (bytes : List UInt8) : Except ReadError Value :=
  (Canonical.ofBytes bytes).bind (ofCanonical? limit)

end Value

end JsonAxes

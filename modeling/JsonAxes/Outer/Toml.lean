import JsonAxes.Text.Escape

/-!
# Settings text

The part of TOML that the loader in `JsonAxes.Outer.Settings` reads: one setting on a line, whose
value is an integer or a truth value, table headers, and comments. Keys are bare or quoted, and may
be dotted.

Keys name places in a tree of tables, and no place may be defined twice. A table is made by a
header that names it, or by a dotted key, or it is implied by a header that leads through it. A
header may name an implied table later on, but none made by a dotted key; a dotted key leads
through no table named by a header, and does not put its value into an implied one. The document
keeps every place with what defined it.
-/

set_option autoImplicit false

namespace JsonAxes.Outer.Toml

/-- A value of a setting. -/
inductive Scalar where
  | integer (i : Int)
  | boolean (b : Bool)
  deriving DecidableEq, Repr

/-- A place in the tree of tables, from the root down. -/
abbrev Key := List String

/-- What defined a place. -/
inductive Definition where
  | value (s : Scalar)
  /-- A table that a header leads through. -/
  | implied
  /-- A table that a dotted key leads through. -/
  | dotted
  /-- A table that a header names. -/
  | headed
  deriving DecidableEq, Repr

/-- A settings text that has been read: its places, the newest definitions in front. -/
structure Document where
  places : List (Key × Definition)
  deriving DecidableEq, Repr

namespace Document

/-- No settings. -/
def empty : Document := ⟨[]⟩

/-- What defined a place. -/
def definition? (d : Document) (key : Key) : Option Definition := d.places.lookup key

/-- Whether there is a value at a place. -/
def hasValue (d : Document) (key : Key) : Bool :=
  match d.definition? key with
  | some (.value _) => true
  | _ => false

/-- Defines a place. -/
def define (d : Document) (key : Key) (definition : Definition) : Document :=
  ⟨(key, definition) :: d.places⟩

/-- The tables that a key leads through below a table, in order. -/
def passed (table key : Key) : List Key :=
  (List.range (key.length - 1)).map fun n => table ++ key.take (n + 1)

/-- Leads a dotted key through a table. -/
def passDotted? (d : Document) (table : Key) : Option Document :=
  match d.definition? table with
  | none => some (d.define table .dotted)
  | some .implied | some .dotted => some d
  | some (.value _) | some .headed => none

/-- Leads a header through a table. -/
def passHeader? (d : Document) (table : Key) : Option Document :=
  match d.definition? table with
  | none => some (d.define table .implied)
  | some (.value _) => none
  | some _ => some d

/-- Sets a value under the key within a table. -/
def set? (d : Document) (table key : Key) (value : Scalar) : Option Document :=
  let tables := passed table key
  let place := table ++ key
  (tables.foldlM passDotted? d).bind fun d =>
    -- the value goes into the table itself, or into one made by a dotted key
    let isOpen := tables.getLast?.all fun last => d.definition? last == some .dotted
    if isOpen && (d.definition? place).isNone then some (d.define place (.value value)) else none

/-- Begins a table. -/
def begin? (d : Document) (table : Key) : Option Document :=
  ((passed [] table).foldlM passHeader? d).bind fun d =>
    match d.definition? table with
    | none | some .implied => some (d.define table .headed)
    | some _ => none

end Document

/-! ## Keys and values -/

/-- Whether a character is white space within a line. -/
def isBlank (c : Char) : Bool := c == ' ' || c == '\t'

/-- What follows white space. -/
def skipBlanks (cs : List Char) : List Char := cs.dropWhile isBlank

/-- Whether a character may stand in a bare key. -/
def isKeyChar (c : Char) : Bool := c.isAlphanum || c == '_' || c == '-'

/-- Whether a character may stand in a comment or in quotes. -/
def isTextChar (c : Char) : Bool := c == '\t' || (' ' ≤ c && c != '\x7f')

/-- The character that so many hexadecimal digits at the front of a text spell, and what follows
them. -/
def codeEscape? (digits : Nat) (cs : List Char) : Option (Char × List Char) :=
  let spelled := cs.take digits
  if spelled.length = digits && spelled.all Text.isHexDigit then
    (Text.charOfCode? (Text.hexNumber spelled)).map fun c => (c, cs.drop digits)
  else none

/-- The character of an escape whose backslash has been taken off, and what follows it. -/
def escape? : List Char → Option (Char × List Char)
  | [] => none
  | c :: rest =>
    if c = 'u' then codeEscape? 4 rest
    else if c = 'U' then codeEscape? 8 rest
    else if c = '/' then none
    else (Text.simpleEscape? c).map fun d => (d, rest)

theorem length_of_escape? {cs rest : List Char} {c : Char}
    (h : escape? cs = some (c, rest)) : rest.length < cs.length := by
  have code {digits : Nat} {cs rest : List Char} {c : Char}
      (h : codeEscape? digits cs = some (c, rest)) : rest.length ≤ cs.length := by
    simp only [codeEscape?] at h
    split at h
    · obtain ⟨_, _, h⟩ := Option.map_eq_some_iff.mp h
      cases h
      simp
    · cases h
  unfold escape? at h
  split at h
  · cases h
  · simp only [List.length_cons]
    split at h
    · exact Nat.lt_succ_of_le (code h)
    · split at h
      · exact Nat.lt_succ_of_le (code h)
      · split at h
        · cases h
        · obtain ⟨_, _, h⟩ := Option.map_eq_some_iff.mp h
          cases h
          simp

/-- The inside of a key in double quotes whose opening quote has been taken off, with its escapes
resolved, and what follows it. -/
def doubleQuoted? (cs : List Char) : Option (List Char × List Char) :=
  match cs with
  | [] => none
  | c :: rest =>
    if c = '"' then some ([], rest)
    else if c = '\\' then
      match h : escape? rest with
      | none => none
      | some (d, after) =>
        have := length_of_escape? h
        (doubleQuoted? after).map fun (inside, left) => (d :: inside, left)
    else if isTextChar c then
      (doubleQuoted? rest).map fun (inside, left) => (c :: inside, left)
    else none
  termination_by cs.length

/-- The inside of a key in single quotes whose opening quote has been taken off, and what follows
it. There are no escapes in it. -/
def singleQuoted? (cs : List Char) : Option (List Char × List Char) :=
  let inside := cs.takeWhile (· != '\'')
  match cs.drop inside.length with
  | _ :: rest => if inside.all isTextChar then some (inside, rest) else none
  | [] => none

/-- A bare key and what follows it. -/
def bare? (cs : List Char) : Option (List Char × List Char) :=
  let part := cs.takeWhile isKeyChar
  if part.isEmpty then none else some (part, cs.drop part.length)

/-- One part of a key and what follows it. -/
def keyPart? : List Char → Option (List Char × List Char)
  | '"' :: rest => doubleQuoted? rest
  | '\'' :: rest => singleQuoted? rest
  | cs => bare? cs

/-- A key of at most so many parts, and what follows it and the white space behind it. -/
def keyWithin? : Nat → List Char → Option (Key × List Char)
  | 0, _ => none
  | parts + 1, cs =>
    (keyPart? (skipBlanks cs)).bind fun (part, rest) =>
      match skipBlanks rest with
      | '.' :: rest =>
        (keyWithin? parts rest).map fun (key, rest) => (String.ofList part :: key, rest)
      | rest => some ([String.ofList part], rest)

/-- The number of parts that a key may have. -/
def keyLimit : Nat := 79

/-- A key and what follows it. -/
def key? (cs : List Char) : Option (Key × List Char) := keyWithin? keyLimit cs

/-- The natural that digits of a base spell, with single underscores between them. -/
def digits? (base : Nat) (value : Char → Option Nat) (cs : List Char) : Option Nat :=
  match cs with
  | [] => none
  | c :: rest => (value c).bind fun d => go d rest
where
  /-- Takes further digits. -/
  go (n : Nat) : List Char → Option Nat
    | [] => some n
    | '_' :: c :: rest => (value c).bind fun d => go (base * n + d) rest
    | c :: rest => (value c).bind fun d => go (base * n + d) rest

/-- The value of a digit of a base up to sixteen. -/
def digitBelow (base : Nat) (c : Char) : Option Nat :=
  let value :=
    if c.isDigit then some (c.toNat - '0'.toNat)
    else if 'a' ≤ c && c ≤ 'f' then some (c.toNat - 'a'.toNat + 10)
    else if 'A' ≤ c && c ≤ 'F' then some (c.toNat - 'A'.toNat + 10)
    else none
  value.filter (· < base)

/-- A natural in some base. -/
def naturalIn? (base : Nat) (cs : List Char) : Option Nat := digits? base (digitBelow base) cs

/-- A decimal without leading zeros. -/
def decimal? (cs : List Char) : Option Nat :=
  if cs.head? = some '0' ∧ cs ≠ ['0'] then none else naturalIn? 10 cs

/-- An integer of 64 bits: a decimal with an optional sign, or a natural with the mark of its
base in front. -/
def integer? (cs : List Char) : Option Int :=
  let value : Option Int := match cs with
    | '+' :: rest => (decimal? rest).map fun n => (n : Int)
    | '-' :: rest => (decimal? rest).map fun n => -(n : Int)
    | '0' :: 'x' :: rest => (naturalIn? 16 rest).map fun n => (n : Int)
    | '0' :: 'o' :: rest => (naturalIn? 8 rest).map fun n => (n : Int)
    | '0' :: 'b' :: rest => (naturalIn? 2 rest).map fun n => (n : Int)
    | rest => (decimal? rest).map fun n => (n : Int)
  value.filter fun i => -0x8000000000000000 ≤ i && i < 0x8000000000000000

/-- The value that a word spells. -/
def scalar? (cs : List Char) : Option Scalar :=
  if cs = "true".toList then some (.boolean true)
  else if cs = "false".toList then some (.boolean false)
  else (integer? cs).map .integer

/-! ## Lines -/

/-- Whether a line ends here, perhaps with a comment. -/
def isLineEnd (cs : List Char) : Bool :=
  match skipBlanks cs with
  | [] => true
  | '#' :: comment => comment.all isTextChar
  | _ => false

/-- What a line says. -/
inductive Line where
  | blank
  | header (table : Key)
  | setting (key : Key) (value : Scalar)

/-- The header whose opening bracket has been taken off. -/
def header? (cs : List Char) : Option Line :=
  (key? cs).bind fun (table, rest) =>
    match rest with
    | ']' :: rest => if isLineEnd rest then some (.header table) else none
    | _ => none

/-- A setting. -/
def setting? (cs : List Char) : Option Line :=
  (key? cs).bind fun (key, rest) =>
    match rest with
    | '=' :: rest =>
      let front := skipBlanks rest
      -- a comment may follow a value without white space between them
      let word := front.takeWhile fun c => !isBlank c && c != '#'
      if isLineEnd (front.drop word.length) then (scalar? word).map (.setting key) else none
    | _ => none

/-- A line. -/
def line? (cs : List Char) : Option Line :=
  match skipBlanks cs with
  | '[' :: rest => header? rest
  | front => if isLineEnd front then some .blank else setting? front

/-- The lines of a text; a carriage return in front of a line feed belongs to it. -/
def splitLines : List Char → List (List Char)
  | [] => [[]]
  | '\n' :: rest => [] :: splitLines rest
  | '\x0d' :: '\n' :: rest => [] :: splitLines rest
  | c :: rest =>
    match splitLines rest with
    | [] => [[c]]
    | first :: more => (c :: first) :: more

/-- What has been read: the document and the table that settings go into. -/
abbrev State := Document × Key

/-- Takes a line. -/
def addLine? (s : State) (cs : List Char) : Option State :=
  (line? cs).bind fun line =>
    match line with
    | .blank => some s
    | .header table => (s.1.begin? table).map fun d => (d, table)
    | .setting key value => (s.1.set? s.2 key value).map fun d => (d, s.2)

/-- A text without the byte order mark that may stand in front of it. -/
def skipMark : List Char → List Char
  | '\uFEFF' :: rest => rest
  | cs => cs

/-- The document that a text spells. -/
def ofText? (cs : List Char) : Option Document :=
  ((splitLines (skipMark cs)).foldlM addLine? (Document.empty, [])).map Prod.fst

end JsonAxes.Outer.Toml

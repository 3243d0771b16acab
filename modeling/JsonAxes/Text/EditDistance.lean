/-!
# Edit distance

The least number of insertions, deletions and substitutions of single characters that turn one
text into another. The distances from a front of the first text to every front of the second make
a row, and each character of the first text takes one row to the next. Two rows are kept: the next
one is written over the last but one.

`bestMatch?` picks the candidate nearest to a text, which is how a misspelt word gets a
suggestion.
-/

set_option autoImplicit false

namespace JsonAxes.Text

/-- A row has an entry for each front of the second text. -/
abbrev Row (ys : List Char) := Vector Nat (ys.length + 1)

/-- Writes the row below a row over another one, given its character and its first entry. Each
entry depends on the one before it, which has been written by then. -/
def fillRow (x : Char) (first : Nat) (ys : List Char) (above row : Row ys) : Row ys :=
  ys.length.fold
    (fun j _ row =>
      let substituted := above[j] + (if x = ys[j] then 0 else 1)
      row.set (j + 1) (min substituted (min above[j + 1] row[j] + 1)))
    (row.set 0 first)

/-- The two rows that are kept. -/
structure Rows (ys : List Char) where
  /-- The row of the characters so far. -/
  above : Row ys
  /-- The row before that one, which is written over next. -/
  spare : Row ys

namespace Rows

/-- The rows before the first character. -/
def start (ys : List Char) : Rows ys where
  above := Vector.range (ys.length + 1)
  spare := Vector.replicate (ys.length + 1) 0

/-- The rows behind a further character, which comes with its index in the first text. -/
def next {ys : List Char} (rows : Rows ys) (x : Char × Nat) : Rows ys where
  above := fillRow x.1 (x.2 + 1) ys rows.above rows.spare
  spare := rows.above

end Rows

/-- The row of the whole first text. -/
def lastRow (xs ys : List Char) : Row ys := (xs.zipIdx.foldl Rows.next (.start ys)).above

/-- The distance between two texts, if it is within a limit. Lengths that differ by more than the
limit settle the question without a single row. -/
def editDistance? (limit : Nat) (xs ys : List Char) : Option Nat :=
  if limit < max (xs.length - ys.length) (ys.length - xs.length) then none
  else
    let distance := (lastRow xs ys)[ys.length]
    if distance ≤ limit then some distance else none

/-- Whether two texts are equal, the case of ASCII letters aside. -/
def equalIgnoringCase (xs ys : List Char) : Bool := xs.map Char.toLower == ys.map Char.toLower

/-- The nearest of some candidates within a limit; of equally near ones the first. Each hit lowers
the limit below its own distance. -/
def nearest? (limit : Nat) (lookup : List Char) : List String → Option String
  | [] => none
  | c :: rest =>
    match editDistance? limit lookup c.toList with
    | none => nearest? limit lookup rest
    | some 0 => some c
    | some (d + 1) => (nearest? d lookup rest).or (some c)

/-- The limit that goes with a text: a third of its length, but at least one. -/
def defaultLimit (lookup : List Char) : Nat := max lookup.length 3 / 3

/-- The candidate that was probably meant: one that differs in case only, or else the nearest
within the limit. -/
def bestMatch? (limit : Nat) (lookup : String) (candidates : List String) : Option String :=
  match candidates.find? fun c => equalIgnoringCase c.toList lookup.toList with
  | some c => some c
  | none => nearest? limit lookup.toList candidates

end JsonAxes.Text

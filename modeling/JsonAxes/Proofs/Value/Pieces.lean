import JsonAxes.Value.Printer

/-!
# The pieces of printed text

Printed text is a sequence of pieces, each of them a sign with the white space in front of it.
Which signs there are, in which kind of place and how deep in containers each stands, is the same in
all layouts (`Value.pieces`); a layout says what is written in a place (`Layout.slotText`) and how
a sign is written (`Layout.signText`). So what holds of each piece holds of all that is printed
(`Layout.flatMap_pieceText`).
-/

set_option autoImplicit false

namespace JsonAxes

namespace Layout

/-- A punctuation mark, or a value that is no container, or a key. -/
inductive Sign where
  | objectOpen
  | objectClose
  | arrayOpen
  | arrayClose
  | colon
  | comma
  | string (s : String)
  | number (n : Number)
  | bool (b : Bool)
  | null

/-- A place for white space. -/
inductive Slot where
  /-- Where there is none in any layout. -/
  | tight
  /-- Inside a bracket. -/
  | edge
  /-- Between a comma and an element. -/
  | element
  /-- Between a comma and a key. -/
  | member
  /-- Between a colon and a value. -/
  | value

/-- A sign at a level of nesting, and the place in front of it. Brackets are as deep as what is
outside of them. -/
structure Piece where
  slot : Slot
  depth : Nat
  sign : Sign

/-- What is written in a place. -/
def slotText (l : Layout) (depth : Nat) : Slot → List Char
  | .tight => []
  | .edge => l.edge depth
  | .element => l.gap l.arrayLineBreaks depth
  | .member => l.gap l.objectLineBreaks depth
  | .value => l.gap l.lineBreakAfterKey depth

/-- How a sign is written. -/
def signText (l : Layout) : Sign → List Char
  | .objectOpen => ['\x7b']
  | .objectClose => ['\x7d']
  | .arrayOpen => ['[']
  | .arrayClose => [']']
  | .colon => [':']
  | .comma => [',']
  | .string s => l.stringText s
  | .number n => numberText n
  | .bool b => (if b then "true" else "false").toList
  | .null => "null".toList

/-- A piece as text. -/
def pieceText (l : Layout) (p : Piece) : List Char := l.slotText p.depth p.slot ++ l.signText p.sign

end Layout

namespace Value

open Layout

mutual

/-- The pieces of a value at a level of nesting, behind a place. -/
def pieces (slot : Slot) (depth : Nat) : Value → List Piece
  | .string s => [⟨slot, depth, .string s⟩]
  | .number n => [⟨slot, depth, .number n⟩]
  | .bool b => [⟨slot, depth, .bool b⟩]
  | .null => [⟨slot, depth, .null⟩]
  | .array [] => [⟨slot, depth, .arrayOpen⟩, ⟨.tight, depth, .arrayClose⟩]
  | .array (v :: vs) =>
    ⟨slot, depth, .arrayOpen⟩ :: (v.pieces .edge (depth + 1)
      ++ (elementPieces (depth + 1) vs ++ [⟨.edge, depth, .arrayClose⟩]))
  | .object [] => [⟨slot, depth, .objectOpen⟩, ⟨.tight, depth, .objectClose⟩]
  | .object ((k, v) :: ms) =>
    ⟨slot, depth, .objectOpen⟩ :: ⟨.edge, depth + 1, .string k⟩ :: ⟨.tight, depth + 1, .colon⟩
      :: (v.pieces .value (depth + 1)
        ++ (memberPieces (depth + 1) ms ++ [⟨.edge, depth, .objectClose⟩]))

/-- The pieces of the elements behind the first. -/
def elementPieces (depth : Nat) : List Value → List Piece
  | [] => []
  | v :: vs => ⟨.tight, depth, .comma⟩ :: (v.pieces .element depth ++ elementPieces depth vs)

/-- The pieces of the members behind the first. -/
def memberPieces (depth : Nat) : List (String × Value) → List Piece
  | [] => []
  | (k, v) :: ms =>
    ⟨.tight, depth, .comma⟩ :: ⟨.member, depth, .string k⟩ :: ⟨.tight, depth, .colon⟩
      :: (v.pieces .value depth ++ memberPieces depth ms)

end

end Value

namespace Layout

open Value

section Text

variable (l : Layout)

mutual

/-- **What is printed is its pieces, one behind the other.** -/
theorem flatMap_pieceText (slot : Slot) (depth : Nat) (v : Value) :
    (v.pieces slot depth).flatMap l.pieceText = l.slotText depth slot ++ l.valueText depth v := by
  cases v with
  | array vs =>
      cases vs with
      | nil => simp [pieces, pieceText, slotText, signText, valueText]
      | cons v vs =>
          simp [pieces, pieceText, slotText, signText, valueText,
            flatMap_pieceText .edge (depth + 1) v, flatMap_elementPieces (depth + 1) vs]
  | object ms =>
      cases ms with
      | nil => simp [pieces, pieceText, slotText, signText, valueText]
      | cons m ms =>
          obtain ⟨key, v⟩ := m
          simp [pieces, pieceText, slotText, signText, valueText,
            flatMap_pieceText .value (depth + 1) v, flatMap_memberPieces (depth + 1) ms]
  | _ => simp [pieces, pieceText, signText, valueText]

theorem flatMap_elementPieces (depth : Nat) (vs : List Value) :
    (elementPieces depth vs).flatMap l.pieceText = l.elementsText depth vs := by
  cases vs with
  | nil => rfl
  | cons v vs =>
      simp [elementPieces, pieceText, slotText, signText, elementsText,
        flatMap_pieceText .element depth v, flatMap_elementPieces depth vs]

theorem flatMap_memberPieces (depth : Nat) (ms : List (String × Value)) :
    (memberPieces depth ms).flatMap l.pieceText = l.membersText depth ms := by
  cases ms with
  | nil => rfl
  | cons m ms =>
      obtain ⟨key, v⟩ := m
      simp [memberPieces, pieceText, slotText, signText, membersText,
        flatMap_pieceText .value depth v, flatMap_memberPieces depth ms]

end

/-- The text of a value is the texts of its pieces. -/
theorem valueText_eq_flatMap (depth : Nat) (v : Value) :
    l.valueText depth v = (v.pieces .tight depth).flatMap l.pieceText :=
  (flatMap_pieceText l .tight depth v).symm

end Text

variable {l l' : Layout}

/-! ## Layouts that escape the same -/

theorem charText_congr (h : l.asciiOnly = l'.asciiOnly) : l.charText = l'.charText := by
  funext c
  rw [charText, h, ← charText]

/-- How signs are written depends on no more than which characters are escaped. -/
theorem signText_congr (h : l.asciiOnly = l'.asciiOnly) (s : Sign) :
    l.signText s = l'.signText s := by
  cases s with
  | string s => rw [signText, signText, stringText, stringText, charText_congr h]
  | _ => rfl

/-- The compact layout that escapes the same. -/
def tight (l : Layout) : Layout := { compact with asciiOnly := l.asciiOnly }

theorem signText_tight (l : Layout) (s : Sign) : l.tight.signText s = l.signText s :=
  signText_congr rfl s

/-- In the compact layout a piece is no more than its sign. -/
theorem pieceText_tight (l : Layout) (p : Piece) : l.tight.pieceText p = l.signText p.sign := by
  have hslot : l.tight.slotText p.depth p.slot = [] := by
    cases p.slot <;> rfl
  rw [pieceText, hslot, List.nil_append, signText_tight]

/-! ## White space -/

/-- Whether a layout has line breaks anywhere. -/
def breaksLines (l : Layout) : Bool :=
  l.arrayLineBreaks || l.objectLineBreaks || l.leadingLineBreak || l.lineBreakAfterKey

/-- A line break and its indentation are white space. -/
theorem mem_newline {depth : Nat} {c : Char} (h : c ∈ l.newline depth) : c = '\n' ∨ c = ' ' := by
  rw [newline, List.mem_cons, List.mem_replicate] at h
  rcases h with h | h
  · exact .inl h
  · exact .inr h.2

theorem mem_gap {lineBreak : Bool} {depth : Nat} {c : Char} (h : c ∈ l.gap lineBreak depth) :
    c = '\n' ∨ c = ' ' := by
  rw [gap] at h
  split at h
  · exact mem_newline h
  · split at h
    · exact .inr (List.mem_singleton.mp h)
    · cases h

theorem mem_edge {depth : Nat} {c : Char} (h : c ∈ l.edge depth) : c = '\n' ∨ c = ' ' := by
  rw [edge] at h
  split at h
  · exact mem_newline h
  · cases h

theorem mem_slotText {depth : Nat} {slot : Slot} {c : Char} (h : c ∈ l.slotText depth slot) :
    c = '\n' ∨ c = ' ' := by
  cases slot with
  | tight => cases h
  | edge => exact mem_edge h
  | element | member | value => exact mem_gap h

theorem gap_cases {lineBreak : Bool} (h : lineBreak = true → l.breaksLines = true) (depth : Nat) :
    (l.gap lineBreak depth = l.newline depth ∧ l.breaksLines = true)
      ∨ '\n' ∉ l.gap lineBreak depth := by
  rw [gap]
  split
  · next hbreak => exact .inl ⟨rfl, h hbreak⟩
  · split
    · exact .inr (by decide)
    · exact .inr List.not_mem_nil

/-- What is written in a place is a line break with its indentation, or has no line feed. -/
theorem slotText_cases (l : Layout) (depth : Nat) (slot : Slot) :
    (l.slotText depth slot = l.newline depth ∧ l.breaksLines = true)
      ∨ '\n' ∉ l.slotText depth slot := by
  cases slot with
  | tight => exact .inr List.not_mem_nil
  | edge =>
      rw [slotText, edge]
      split
      · next h => exact .inl ⟨rfl, by simp [breaksLines, h]⟩
      · exact .inr List.not_mem_nil
  | element => exact gap_cases (fun h => by simp [breaksLines, h]) depth
  | member => exact gap_cases (fun h => by simp [breaksLines, h]) depth
  | value => exact gap_cases (fun h => by simp [breaksLines, h]) depth

end Layout

end JsonAxes

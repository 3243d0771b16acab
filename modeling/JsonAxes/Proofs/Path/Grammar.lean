import JsonAxes.Proofs.Path.Reading
import JsonAxes.Proofs.Path.Spelling

/-!
# The grammar of paths

What may be written as a path, apart from how it is read:

* a path: an optional leading separator, then steps with a separator between any two; there may be
  no steps at all unless the leading separator is `//`; white space at both ends;
* a separator: `/` or `//`, with white space around it;
* a step: `.` or `..`, or a test and predicates, which `@` or an axis name and `::` may precede;
* a test: `*`, a name and `()`, a name, or any characters in quotes that are not among them;
* a predicate: a decimal from 1 up to the largest number of 64 bits, without a leading zero, in
  brackets and with white space around it.

A text is read as the path that the grammar derives for it (`Surface.exists_ofText?_of_spelledBy`),
and a text that is read has a derivation (`Surface.exists_spelledBy_of_ofText?`). Since a text is
read in one way, it has no two derivations. What a derivation stands for is the path with its
abbreviations written out, if its axes and tests exist and no step has two predicates
(`Path.ofText?_reads_grammar`).
-/

set_option autoImplicit false

namespace JsonAxes

/-- Whether a number can be read as a position: the least is one, and all of them fit in 64 bits. -/
def IsPosition (n : Nat) : Prop := 1 ≤ n ∧ n < Surface.positionBound

instance : DecidablePred IsPosition := fun n =>
  inferInstanceAs (Decidable (1 ≤ n ∧ n < Surface.positionBound))

namespace Surface

/-! ## Texts of names, tests and predicates -/

/-- White space, or nothing at all. -/
def IsBlank (cs : List Char) : Prop := ∀ c ∈ cs, Text.isWhitespace c = true

/-- A name that stands without quotes. -/
structure IsPlainName (cs : List Char) : Prop where
  ne_nil : cs ≠ []
  isNameChar : ∀ c ∈ cs, Path.isNameChar c = true

/-- The texts of a test. -/
inductive Test.SpelledBy : Test → List Char → Prop where
  | wildcard : SpelledBy .wildcard ['*']
  | function {cs : List Char} (h : IsPlainName cs) :
      SpelledBy (.function (String.ofList cs)) (cs ++ ['(', ')'])
  | plain {cs : List Char} (h : IsPlainName cs) : SpelledBy (.name (String.ofList cs)) cs
  | quoted {quote : Char} {cs : List Char} (hquote : quote = '"' ∨ quote = '\'')
      (h : quote ∉ cs) : SpelledBy (.name (String.ofList cs)) (quote :: (cs ++ [quote]))

/-- Decimal digits of a number, the first of them no zero. -/
structure IsDecimal (n : Nat) (cs : List Char) : Prop where
  isDigit : ∀ c ∈ cs, c.isDigit = true
  head : cs.head? ≠ some '0'
  value : Nat.ofDigitChars 10 cs 0 = n

/-- The texts of a predicate. -/
inductive PredicateSpelledBy : Nat → List Char → Prop where
  | mk {n : Nat} {front digits behind : List Char} (hn : IsPosition n) (hfront : IsBlank front)
      (hdigits : IsDecimal n digits) (hbehind : IsBlank behind) :
      PredicateSpelledBy n ('[' :: (front ++ (digits ++ (behind ++ [']']))))

/-- The texts of predicates one after another. -/
inductive PredicatesSpelledBy : List Nat → List Char → Prop where
  | nil : PredicatesSpelledBy [] []
  | cons {n : Nat} {ns : List Nat} {cs ds : List Char} (h : PredicateSpelledBy n cs)
      (hns : PredicatesSpelledBy ns ds) : PredicatesSpelledBy (n :: ns) (cs ++ ds)

/-! ## Texts of steps and paths -/

/-- The texts of the axis of a step, with what separates it from the test. -/
inductive AxisPart.SpelledBy : AxisPart → List Char → Prop where
  | attributes : SpelledBy (.implied .attributes) ['@']
  | along {cs : List Char} (h : IsPlainName cs) :
      SpelledBy (.named (String.ofList cs)) (cs ++ [':', ':'])
  | child : SpelledBy (.implied .child) []

/-- A step as it is written. -/
inductive WrittenStep where
  /-- A dot. -/
  | self
  /-- Two dots. -/
  | parent
  /-- A test behind `@`. -/
  | attributes (test : Test) (positions : List Nat)
  /-- A test behind the name of an axis. -/
  | along (axis : String) (test : Test) (positions : List Nat)
  /-- A test by itself. -/
  | child (test : Test) (positions : List Nat)

/-- The texts of a step. -/
inductive WrittenStep.SpelledBy : WrittenStep → List Char → Prop where
  | self : SpelledBy .self ['.']
  | parent : SpelledBy .parent ['.', '.']
  | attributes {test : Test} {ns : List Nat} {ts ps : List Char} (ht : test.SpelledBy ts)
      (hp : PredicatesSpelledBy ns ps) : SpelledBy (.attributes test ns) ('@' :: (ts ++ ps))
  | along {axis ts ps : List Char} {test : Test} {ns : List Nat} (ha : IsPlainName axis)
      (ht : test.SpelledBy ts) (hp : PredicatesSpelledBy ns ps) :
      SpelledBy (.along (String.ofList axis) test ns) (axis ++ (':' :: ':' :: (ts ++ ps)))
  | child {test : Test} {ns : List Nat} {ts ps : List Char} (ht : test.SpelledBy ts)
      (hp : PredicatesSpelledBy ns ps) : SpelledBy (.child test ns) (ts ++ ps)

/-- A separator without the white space around it. -/
def Separator.mark : Separator → List Char
  | .child => ['/']
  | .deep => ['/', '/']

/-- The texts of a separator. -/
inductive Separator.SpelledBy : Separator → List Char → Prop where
  | mk {s : Separator} {front behind : List Char} (hfront : IsBlank front)
      (hbehind : IsBlank behind) : SpelledBy s (front ++ (s.mark ++ behind))

/-- The texts of a separator that may be left out. -/
inductive LeadingSpelledBy : Option Separator → List Char → Prop where
  | none : LeadingSpelledBy none []
  | some {s : Separator} {cs : List Char} (h : s.SpelledBy cs) : LeadingSpelledBy (some s) cs

/-- The texts of the steps behind the first, each behind its separator. -/
inductive MoreSpelledBy : List (Separator × WrittenStep) → List Char → Prop where
  | nil : MoreSpelledBy [] []
  | cons {s : Separator} {step : WrittenStep} {more : List (Separator × WrittenStep)}
      {as bs cs : List Char} (hs : s.SpelledBy as) (hstep : step.SpelledBy bs)
      (hmore : MoreSpelledBy more cs) : MoreSpelledBy ((s, step) :: more) (as ++ (bs ++ cs))

/-- A path as it is written: its leading separator, its first step and the steps behind that. -/
structure Written where
  leading? : Option Separator
  steps? : Option (WrittenStep × List (Separator × WrittenStep))

/-- The texts of a path. -/
inductive Written.SpelledBy : Written → List Char → Prop where
  | bare {lead? : Option Separator} {front ls behind : List Char} (hdeep : lead? ≠ some .deep)
      (hfront : IsBlank front) (hlead : LeadingSpelledBy lead? ls) (hbehind : IsBlank behind) :
      SpelledBy ⟨lead?, none⟩ (front ++ (ls ++ behind))
  | steps {lead? : Option Separator} {first : WrittenStep}
      {more : List (Separator × WrittenStep)} {front ls cs ms behind : List Char}
      (hfront : IsBlank front) (hlead : LeadingSpelledBy lead? ls) (hfirst : first.SpelledBy cs)
      (hmore : MoreSpelledBy more ms) (hbehind : IsBlank behind) :
      SpelledBy ⟨lead?, some (first, more)⟩ (front ++ (ls ++ (cs ++ (ms ++ behind))))

/-! ## What is written stands for -/

/-- What a test stands for: there is no function but `node`. -/
inductive Test.StandsFor : Test → SpelledTest → Prop where
  | wildcard : StandsFor .wildcard .wildcard
  | node : StandsFor (.function "node") .node
  | name (name : String) : StandsFor (.name name) (.name name)

/-- What a step stands for: an axis that exists, and at most one position. -/
inductive WrittenStep.StandsFor : WrittenStep → SpelledStep → Prop where
  | self : StandsFor .self ⟨.self, .node, none⟩
  | parent : StandsFor .parent ⟨.parent, .node, none⟩
  | attributes {test : Test} {t : SpelledTest} (ht : test.StandsFor t) (position? : Option Nat) :
      StandsFor (.attributes test position?.toList) ⟨.attributes, t, position?⟩
  | along (axis : Axis) {test : Test} {t : SpelledTest} (ht : test.StandsFor t)
      (position? : Option Nat) :
      StandsFor (.along axis.name test position?.toList) ⟨axis, t, position?⟩
  | child {test : Test} {t : SpelledTest} (ht : test.StandsFor t) (position? : Option Nat) :
      StandsFor (.child test position?.toList) ⟨.child, t, position?⟩

/-- The step that a separator stands for: a double slash leads through all descendants. -/
def Separator.expansion : Separator → List SpelledStep
  | .child => []
  | .deep => [⟨.descendantOrSelf, .node, none⟩]

/-- What steps stand for, each behind its separator. -/
inductive StandFor : List (Separator × WrittenStep) → List SpelledStep → Prop where
  | nil : StandFor [] []
  | cons (s : Separator) {step : WrittenStep} {steps : List (Separator × WrittenStep)}
      {t : SpelledStep} {ts : List SpelledStep} (hstep : step.StandsFor t)
      (hsteps : StandFor steps ts) : StandFor ((s, step) :: steps) (s.expansion ++ t :: ts)

/-- The steps of a path behind their separators; the first stands behind the leading one. -/
def Written.steps (w : Written) : List (Separator × WrittenStep) :=
  match w.steps? with
  | none => []
  | some (first, more) => (w.leading?.getD .child, first) :: more

/-! ## Characters of the grammar -/

/-- White space stands in no plain name. -/
theorem isNameChar_of_isWhitespace {c : Char} (h : Text.isWhitespace c = true) :
    Path.isNameChar c = false := by
  have hall : ∀ n ∈ [0x09, 0x0A, 0x0B, 0x0C, 0x0D, 0x20, 0x85, 0xA0, 0x1680, 0x2000, 0x2001,
      0x2002, 0x2003, 0x2004, 0x2005, 0x2006, 0x2007, 0x2008, 0x2009, 0x200A, 0x2028, 0x2029,
      0x202F, 0x205F, 0x3000], Path.isNameChar (Char.ofNat n) = false := by decide +kernel
  have hmem : c.toNat ∈ [0x09, 0x0A, 0x0B, 0x0C, 0x0D, 0x20, 0x85, 0xA0, 0x1680, 0x2000, 0x2001,
      0x2002, 0x2003, 0x2004, 0x2005, 0x2006, 0x2007, 0x2008, 0x2009, 0x200A, 0x2028, 0x2029,
      0x202F, 0x205F, 0x3000] := by
    simp only [Text.isWhitespace, Text.inRanges, List.any_cons, List.any_nil, Bool.or_eq_true,
      Bool.and_eq_true, decide_eq_true_eq, Bool.or_false] at h
    simp only [List.mem_cons, List.not_mem_nil, or_false]
    omega
  have hname := hall c.toNat hmem
  rwa [Char.ofNat_toNat] at hname

/-- Whether a text ends a step: nothing is left of it but white space or a separator. -/
def EndsStep (rest : List Char) : Prop :=
  ∀ c ∈ rest.head?, c = '/' ∨ Text.isWhitespace c = true

/-- Whether a text ends a test: what is left of it may also begin with a predicate. -/
def EndsTest (rest : List Char) : Prop :=
  ∀ c ∈ rest.head?, c = '[' ∨ c = '/' ∨ Text.isWhitespace c = true

section Ends

variable {rest : List Char}

theorem EndsTest.isNameChar (h : EndsTest rest) :
    ∀ c ∈ rest.head?, Path.isNameChar c = false := by
  intro c hc
  rcases h c hc with rfl | rfl | hblank
  · exact isNameChar_mark _ (by decide)
  · exact isNameChar_mark _ (by decide)
  · exact isNameChar_of_isWhitespace hblank

theorem EndsTest.head?_ne (h : EndsTest rest) {d : Char} (hd : d ≠ '[' ∧ d ≠ '/')
    (hblank : Text.isWhitespace d = false) : rest.head? ≠ some d := by
  intro hhead
  rcases h d hhead with heq | heq | heq
  · exact hd.1 heq
  · exact hd.2 heq
  · rw [hblank] at heq
    cases heq

theorem EndsStep.head?_ne (h : EndsStep rest) {d : Char} (hd : d ≠ '/')
    (hblank : Text.isWhitespace d = false) : rest.head? ≠ some d := by
  intro hhead
  rcases h d hhead with heq | heq
  · exact hd heq
  · rw [hblank] at heq
    cases heq

end Ends

/-- A text that is white space, or begins with it, ends a step if what stands behind it does. -/
theorem IsBlank.endsStep_append {front rest : List Char} (hfront : IsBlank front)
    (h : EndsStep rest) : EndsStep (front ++ rest) := by
  intro c hc
  cases front with
  | nil => exact h c hc
  | cons d front =>
      cases hc
      exact .inr (hfront c List.mem_cons_self)

theorem IsBlank.endsStep {cs : List Char} (h : IsBlank cs) : EndsStep cs := by
  intro c hc
  exact .inr (h c (List.mem_of_mem_head? hc))

theorem isBlank_append {as bs : List Char} (ha : IsBlank as) (hb : IsBlank bs) :
    IsBlank (as ++ bs) := by
  intro c hc
  rcases List.mem_append.mp hc with h | h
  · exact ha c h
  · exact hb c h

theorem isBlank_nil : IsBlank [] := nofun

/-- White space is skipped up to what is none. -/
theorem skipBlanks_append {front rest : List Char} (hfront : IsBlank front)
    (hrest : ∀ c ∈ rest.head?, Text.isWhitespace c = false) (offset : Nat) :
    (⟨offset, front ++ rest⟩ : Rest).skipBlanks
      = ⟨offset + Text.utf8Length front, rest⟩ := by
  rw [Rest.skipBlanks, Rest.skipWhile]
  show Rest.advance _ ((front ++ rest).takeWhile Text.isWhitespace).length = _
  rw [Text.takeWhile_append hfront hrest, advance_append]

theorem skipBlanks_of_isBlank {cs : List Char} (h : IsBlank cs) (offset : Nat) :
    (⟨offset, cs⟩ : Rest).skipBlanks = ⟨offset + Text.utf8Length cs, []⟩ := by
  have hnil : ∀ c ∈ ([] : List Char).head?, Text.isWhitespace c = false := nofun
  have hskip := skipBlanks_append h hnil offset
  rwa [List.append_nil] at hskip

end Surface

end JsonAxes

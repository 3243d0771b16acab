import JsonAxes.Path.Basic
import JsonAxes.Span
import JsonAxes.Text.Units

/-!
# Surface paths

What a path's text says before abbreviations are expanded and names are checked. The form of the
text is

* a path: an optional leading separator, then steps with a separator between any two; there are no
  steps at all, or at least one if the leading separator is `//`;
* a separator: `/` or `//`, with white space around it;
* a step: `.` or `..`, or a test with predicates, which `@` or an axis name and `::` may precede;
* a test: `*`, a name with `()` behind it, a name, or a quoted name;
* a predicate: a positive decimal below 2^64 in brackets, with white space around the digits;

with white space at both ends of the whole. Of several ways to read the front of a text the first
in this order is taken, and no choice is revised later. Each function here reads one of these from
the front of a text and gives what is left.
-/

set_option autoImplicit false

namespace JsonAxes

namespace Surface

/-- The axis of a step. -/
inductive AxisPart where
  /-- Written out as a name. -/
  | named (name : String)
  /-- Implied by an abbreviation. -/
  | implied (axis : Axis)
  deriving DecidableEq, Repr

/-- The test of a step. -/
inductive Test where
  | wildcard
  | name (name : String)
  /-- A name with parentheses. -/
  | function (name : String)
  deriving DecidableEq, Repr

/-- A step with the places of its parts. -/
structure Step where
  axis : AxisPart
  axisSpan : Span
  test : Test
  testSpan : Span
  predicates : List (Nat × Span)
  deriving DecidableEq, Repr

/-- What stands in front of a step. -/
inductive Separator where
  /-- A single slash. -/
  | child
  /-- A double slash. -/
  | deep
  deriving DecidableEq, Repr

end Surface

/-- A path as it is written. -/
structure Surface where
  leading? : Option Surface.Separator
  steps : List (Surface.Separator × Surface.Step)
  deriving DecidableEq, Repr

namespace Surface

/-- The text still to be read, and its byte offset in the whole text. -/
structure Rest where
  offset : Nat
  chars : List Char
  deriving DecidableEq, Repr

namespace Rest

/-- A whole text. -/
def ofText (text : String) : Rest := ⟨0, text.toList⟩

/-- What is left behind so many characters. -/
def advance (r : Rest) (n : Nat) : Rest :=
  ⟨r.offset + Text.utf8Length (r.chars.take n), r.chars.drop n⟩

/-- What is left behind the characters of a class. -/
def skipWhile (r : Rest) (p : Char → Bool) : Rest := r.advance (r.chars.takeWhile p).length

/-- What is left behind white space. -/
def skipBlanks (r : Rest) : Rest := r.skipWhile Text.isWhitespace

/-- What is left behind a given piece of text, if it stands there. -/
def expect? (r : Rest) (piece : List Char) : Option Rest :=
  if piece.isPrefixOf r.chars then some (r.advance piece.length) else none

/-- The span up to what is left later. -/
def spanTo (r later : Rest) : Span := ⟨r.offset, later.offset⟩

end Rest

/-! ## Names and tests -/

/-- A name without quotes. -/
def plainName? (r : Rest) : Option (String × Rest) :=
  let cs := r.chars.takeWhile Path.isNameChar
  if cs.isEmpty then none else some (String.ofList cs, r.advance cs.length)

/-- A name within a given quote. -/
def quotedName? (quote : Char) (r : Rest) : Option (String × Rest) := do
  let inside ← r.expect? [quote]
  let cs := inside.chars.takeWhile (· != quote)
  let after ← (inside.advance cs.length).expect? [quote]
  return (String.ofList cs, after)

/-- A test. -/
def test? (r : Rest) : Option (Test × Rest) :=
  match r.expect? ['*'] with
  | some after => some (.wildcard, after)
  | none =>
    match plainName? r with
    | some (name, after) =>
      match after.expect? ['(', ')'] with
      | some after => some (.function name, after)
      | none => some (.name name, after)
    | none =>
      match quotedName? '"' r with
      | some (name, after) => some (.name name, after)
      | none => (quotedName? '\'' r).map fun (name, after) => (.name name, after)

/-! ## Predicates -/

/-- The least number that is too large for a position. -/
def positionBound : Nat := 0x10000000000000000

/-- A position: a decimal without leading zero. -/
def position? (r : Rest) : Option (Nat × Rest) :=
  let digits := r.chars.takeWhile Char.isDigit
  let n := digits.foldl (fun n c => 10 * n + (c.toNat - '0'.toNat)) 0
  if digits.head? ≠ some '0' ∧ 0 < n ∧ n < positionBound then some (n, r.advance digits.length)
  else none

/-- A predicate. -/
def predicate? (r : Rest) : Option ((Nat × Span) × Rest) := do
  let inside ← r.expect? ['[']
  let (n, after) ← position? inside.skipBlanks
  let last ← after.skipBlanks.expect? [']']
  return ((n, r.spanTo last), last)

/-! ## What is left is shorter -/

theorem Rest.length_advance (r : Rest) (n : Nat) :
    (r.advance n).chars.length = r.chars.length - n := by
  simp [Rest.advance]

theorem Rest.length_skipBlanks_le (r : Rest) : r.skipBlanks.chars.length ≤ r.chars.length := by
  simp only [Rest.skipBlanks, Rest.skipWhile, length_advance]
  omega

theorem Rest.length_of_expect? {r after : Rest} {c : Char} {cs : List Char}
    (h : r.expect? (c :: cs) = some after) : after.chars.length < r.chars.length := by
  unfold Rest.expect? at h
  split at h
  · next hp =>
    cases h
    have := (List.isPrefixOf_iff_prefix.mp hp).length_le
    simp only [length_advance, List.length_cons] at this ⊢
    omega
  · cases h

theorem length_position? {r after : Rest} {n : Nat} (h : position? r = some (n, after)) :
    after.chars.length ≤ r.chars.length := by
  unfold position? at h
  simp only at h
  split at h
  · cases h
    simp only [Rest.length_advance]
    omega
  · cases h

theorem length_predicate? {r after : Rest} {p : Nat × Span}
    (h : predicate? r = some (p, after)) : after.chars.length < r.chars.length := by
  simp only [predicate?, Option.bind_eq_bind, Option.bind_eq_some_iff, Option.pure_def,
    Option.some.injEq, Prod.mk.injEq, Prod.exists] at h
  obtain ⟨inside, hi, n, behind, hn, last, hl, -, rfl⟩ := h
  have h₁ := Rest.length_of_expect? hi
  have h₂ := inside.length_skipBlanks_le
  have h₃ := length_position? hn
  have h₄ := behind.length_skipBlanks_le
  have h₅ := Rest.length_of_expect? hl
  omega

/-- As many predicates as there are. -/
def predicates (r : Rest) : List (Nat × Span) × Rest :=
  match h : predicate? r with
  | none => ([], r)
  | some (p, after) =>
    have := length_predicate? h
    let (more, last) := predicates after
    (p :: more, last)
  termination_by r.chars.length

/-! ## Steps -/

/-- A dot or two, standing for a whole step. -/
def abbreviated (axis : Axis) (r after : Rest) : Step × Rest :=
  let span := r.spanTo after
  (⟨.implied axis, span, .function "node", span, []⟩, after)

/-- An axis with what separates it from its test. -/
def axisPart? (r : Rest) : Option ((AxisPart × Span) × Rest) :=
  match r.expect? ['@'] with
  | some after => some ((.implied .attributes, r.spanTo after), after)
  | none => do
    let (name, after) ← plainName? r
    let last ← after.expect? [':', ':']
    return ((.named name, r.spanTo after), last)

/-- A step that begins with its axis. -/
def axisStep? (r : Rest) : Option (Step × Rest) := do
  let ((axis, axisSpan), front) ← axisPart? r
  let (test, after) ← test? front
  let (ps, last) := predicates after
  return (⟨axis, axisSpan, test, front.spanTo after, ps⟩, last)

/-- A step that begins with its test; its axis is the child axis. -/
def testStep? (r : Rest) : Option (Step × Rest) := do
  let (test, after) ← test? r
  let span := r.spanTo after
  let (ps, last) := predicates after
  return (⟨.implied .child, span, test, span, ps⟩, last)

/-- A step. -/
def step? (r : Rest) : Option (Step × Rest) :=
  -- two dots are tried first: one dot would leave the other behind
  match r.expect? ['.', '.'] with
  | some after => some (abbreviated .parent r after)
  | none =>
    match r.expect? ['.'] with
    | some after => some (abbreviated .self r after)
    | none => (axisStep? r).or (testStep? r)

/-- A separator. -/
def separator? (r : Rest) : Option (Separator × Rest) :=
  let front := r.skipBlanks
  match front.expect? ['/', '/'] with
  | some after => some (.deep, after.skipBlanks)
  | none => (front.expect? ['/']).map fun after => (.child, after.skipBlanks)

/-! ## Paths -/

theorem length_separator? {r after : Rest} {s : Separator} (h : separator? r = some (s, after)) :
    after.chars.length < r.chars.length := by
  have h₁ := r.length_skipBlanks_le
  unfold separator? at h
  simp only at h
  split at h
  · next behind hb =>
    cases h
    have h₂ := Rest.length_of_expect? hb
    have h₃ := behind.length_skipBlanks_le
    omega
  · obtain ⟨behind, hb, he⟩ := Option.map_eq_some_iff.mp h
    cases he
    have h₂ := Rest.length_of_expect? hb
    have h₃ := behind.length_skipBlanks_le
    omega

theorem length_test? {r after : Rest} {t : Test} (h : test? r = some (t, after)) :
    after.chars.length ≤ r.chars.length := by
  have hq : ∀ {q : Char} {name : String} {rest : Rest}, quotedName? q r = some (name, rest) →
      rest.chars.length ≤ r.chars.length := by
    intro q name rest hq
    simp only [quotedName?, Option.bind_eq_bind, Option.bind_eq_some_iff, Option.pure_def,
      Option.some.injEq, Prod.mk.injEq] at hq
    obtain ⟨inside, hi, behind, hb, -, rfl⟩ := hq
    have h₁ := Rest.length_of_expect? hi
    have h₂ := Rest.length_of_expect? hb
    simp only [Rest.length_advance] at h₂
    omega
  have hp : ∀ {name : String} {rest : Rest}, plainName? r = some (name, rest) →
      rest.chars.length ≤ r.chars.length := by
    intro name rest hp
    unfold plainName? at hp
    simp only at hp
    split at hp
    · cases hp
    · cases hp
      simp only [Rest.length_advance]
      omega
  unfold test? at h
  split at h
  · next he => cases h; exact Nat.le_of_lt (Rest.length_of_expect? he)
  · split at h
    · next hn =>
      have h₁ := hp hn
      split at h
      · next he =>
        cases h
        have h₂ := Rest.length_of_expect? he
        omega
      · cases h; exact h₁
    · split at h
      · next hn => cases h; exact hq hn
      · obtain ⟨⟨name, behind⟩, hb, he⟩ := Option.map_eq_some_iff.mp h
        cases he
        exact hq hb

theorem length_predicates_le (r : Rest) : (predicates r).2.chars.length ≤ r.chars.length := by
  fun_induction predicates r with
  | case1 => exact Nat.le_refl _
  | case2 r p after h this more last hm ih =>
    simp only [hm] at ih
    show last.chars.length ≤ _
    omega

theorem length_step?_le {r after : Rest} {s : Step} (h : step? r = some (s, after)) :
    after.chars.length ≤ r.chars.length := by
  unfold step? at h
  split at h
  · next he => cases h; exact Nat.le_of_lt (Rest.length_of_expect? he)
  · split at h
    · next he => cases h; exact Nat.le_of_lt (Rest.length_of_expect? he)
    · rcases Option.or_eq_some_iff.mp h with h | ⟨-, h⟩
      · simp only [axisStep?, Option.bind_eq_bind, Option.bind_eq_some_iff, Option.pure_def,
          Option.some.injEq, Prod.mk.injEq, Prod.exists] at h
        obtain ⟨axis, span, front, ha, test, behind, ht, -, rfl⟩ := h
        have h₁ : front.chars.length ≤ r.chars.length := by
          unfold axisPart? at ha
          split at ha
          · next he => cases ha; exact Nat.le_of_lt (Rest.length_of_expect? he)
          · simp only [Option.bind_eq_bind, Option.bind_eq_some_iff, Option.pure_def,
              Option.some.injEq, Prod.mk.injEq, Prod.exists] at ha
            obtain ⟨name, behind', hn, last, hl, -, rfl⟩ := ha
            have h₂ := Rest.length_of_expect? hl
            unfold plainName? at hn
            simp only at hn
            split at hn
            · cases hn
            · cases hn
              simp only [Rest.length_advance] at h₂
              omega
        have h₂ := length_test? ht
        have h₃ := length_predicates_le behind
        omega
      · simp only [testStep?, Option.bind_eq_bind, Option.bind_eq_some_iff, Option.pure_def,
          Option.some.injEq, Prod.mk.injEq, Prod.exists] at h
        obtain ⟨test, behind, ht, -, rfl⟩ := h
        have h₂ := length_test? ht
        have h₃ := length_predicates_le behind
        omega

/-- As many steps as there are, each behind its separator. -/
def moreSteps (r : Rest) : List (Separator × Step) × Rest :=
  match h : separator? r with
  | none => ([], r)
  | some (s, front) =>
    match h' : step? front with
    | none => ([], r)
    | some (step, after) =>
      have := length_separator? h
      have := length_step?_le h'
      let (more, last) := moreSteps after
      ((s, step) :: more, last)
  termination_by r.chars.length

/-- The leading separator, if there is one. -/
def leading (r : Rest) : Option Separator × Rest :=
  match separator? r with
  | some (s, after) => (some s, after)
  | none => (none, r)

/-- A path, whatever stands behind it. -/
def path? (r : Rest) : Option (Surface × Rest) :=
  let (lead, front) := leading r.skipBlanks
  match step? front with
  | some (first, after) =>
    let (more, last) := moreSteps after
    some (⟨lead, (lead.getD .child, first) :: more⟩, last)
  | none => if lead = some .deep then none else some (⟨lead, []⟩, front)

/-- A path with nothing behind it. -/
def read? (r : Rest) : Option Surface :=
  (path? r).bind fun (path, last) =>
    if last.skipBlanks.chars.isEmpty then some path else none

/-- The surface path that a text spells. -/
def ofText? (text : String) : Option Surface := read? (Rest.ofText text)

end Surface

end JsonAxes

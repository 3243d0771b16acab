import JsonAxes.Text.Units

/-!
# Literals

The pieces of text that make up one string, number or word. Each function here takes its piece
from the front of a text and says how far it reaches, whether it is whole or broken off; where
the text stands is left to the lexer.
-/

set_option autoImplicit false

namespace JsonAxes.Token

/-! ## Strings -/

/-- How far an escape reaches behind its backslash. -/
inductive EscapeExtent where
  /-- A whole escape of so many characters. -/
  | whole (length : Nat)
  /-- No escape; so many characters show it. -/
  | broken (length : Nat)
  /-- The text ends behind the backslash. -/
  | missing
  deriving DecidableEq, Repr

/-- Whether a character behind a backslash stands for one character by itself. -/
def isSimpleEscape (c : Char) : Bool :=
  c == '"' || c == '\\' || c == '/' || c == 'b' || c == 'f' || c == 'n' || c == 'r' || c == 't'

/-- The extent of the escape whose backslash has been taken off. An escape by number has four
hexadecimal digits; the first character that is none is counted as part of the broken escape. -/
def escapeExtent : List Char → EscapeExtent
  | [] => .missing
  | c :: rest =>
    if c = 'u' then
      let digits := ((rest.take 4).takeWhile Text.isHexDigit).length
      if digits = 4 then .whole 5 else .broken (1 + min (digits + 1) rest.length)
    else if isSimpleEscape c then .whole 1
    else .broken 1

/-- How a string ends. -/
inductive StringEnd where
  /-- At a quote, with the rest of the text behind it. -/
  | closed (rest : List Char)
  /-- Never: the text ends first. -/
  | unterminated
  /-- At a backslash with nothing behind it. -/
  | unterminatedEscape
  /-- At a broken escape, given from its backslash on. -/
  | malformedEscape (escape : List Char)
  deriving DecidableEq, Repr

/-- The body of the string whose opening quote has been taken off, up to where it ends. -/
def stringBody : List Char → List Char × StringEnd
  | [] => ([], .unterminated)
  | c :: rest =>
    if c = '"' then ([], .closed rest)
    else if c = '\\' then
      match escapeExtent rest with
      | .missing => ([], .unterminatedEscape)
      | .broken n => ([], .malformedEscape ('\\' :: rest.take n))
      | .whole n =>
        let (body, ending) := stringBody (rest.drop n)
        ('\\' :: rest.take n ++ body, ending)
    else
      let (body, ending) := stringBody rest
      (c :: body, ending)
  termination_by cs => cs.length
  decreasing_by
    · simp only [List.length_cons, List.length_drop]
      omega
    · simp only [List.length_cons]
      omega

/-! ## Numbers -/

/-- A number as far as it goes: its text and the rest, or the text that shows it is none. -/
abbrev NumberExtent := Except (List Char) (List Char × List Char)

/-- At least one digit behind what has been taken; if there is none, the next character is to
blame. -/
def someDigits (taken rest : List Char) : NumberExtent :=
  let digits := rest.takeWhile Char.isDigit
  if digits.isEmpty then .error (taken ++ rest.take 1)
  else .ok (taken ++ digits, rest.dropWhile Char.isDigit)

/-- An optional point with digits behind it. -/
def fractionPart (taken : List Char) : List Char → NumberExtent
  | '.' :: rest => someDigits (taken ++ ['.']) rest
  | rest => .ok (taken, rest)

/-- An optional exponent: its letter, an optional sign, and digits. -/
def exponentPart (taken : List Char) : List Char → NumberExtent
  | [] => .ok (taken, [])
  | c :: rest =>
    if c = 'e' ∨ c = 'E' then
      match rest with
      | '+' :: rest => someDigits (taken ++ [c, '+']) rest
      | '-' :: rest => someDigits (taken ++ [c, '-']) rest
      | rest => someDigits (taken ++ [c]) rest
    else .ok (taken, c :: rest)

/-- Digits with an optional minus sign in front. -/
def integerPart : List Char → NumberExtent
  | '-' :: rest => someDigits ['-'] rest
  | rest => someDigits [] rest

/-- A number: an integer, a fraction, an exponent. -/
def numberExtent (cs : List Char) : NumberExtent := do
  let (taken, rest) ← integerPart cs
  let (taken, rest) ← fractionPart taken rest
  exponentPart taken rest

/-! ## Words -/

/-- Takes a word off a text letter by letter. Where a letter differs, the error is what was taken
together with the letters and digits that follow. -/
def wordExtent : (word cs : List Char) → Except (List Char) (List Char)
  | [], cs => .ok cs
  | _ :: _, [] => .error []
  | w :: word, c :: cs =>
    if c = w then
      match wordExtent word cs with
      | .ok rest => .ok rest
      | .error taken => .error (c :: taken)
    else .error ((c :: cs).takeWhile Char.isAlphanum)

/-! ## What is left is shorter -/

theorem length_lt_of_stringBody (cs : List Char) {body rest : List Char}
    (h : stringBody cs = (body, .closed rest)) : rest.length < cs.length := by
  fun_induction stringBody cs generalizing body with
  | case1 => cases h
  | case2 => cases h; simp
  | case3 => cases h
  | case4 => cases h
  | case5 rest' n _ body' ending hb _ ih =>
    cases h
    have := ih hb
    simp at this ⊢
    omega
  | case6 c rest' _ _ body' ending hb ih =>
    cases h
    have := ih hb
    simp
    omega

theorem someDigits_length {taken rest taken' rest' : List Char}
    (h : someDigits taken rest = .ok (taken', rest')) : rest'.length < rest.length := by
  unfold someDigits at h
  simp only at h
  split at h
  · cases h
  · next hd =>
    cases h
    have hs := congrArg List.length
      (List.takeWhile_append_dropWhile (p := Char.isDigit) (l := rest))
    have : 0 < (rest.takeWhile Char.isDigit).length := by
      cases hl : rest.takeWhile Char.isDigit
      · simp [hl] at hd
      · simp
    simp only [List.length_append] at hs
    omega

theorem integerPart_length {cs taken rest : List Char}
    (h : integerPart cs = .ok (taken, rest)) : rest.length < cs.length := by
  unfold integerPart at h
  split at h
  · have := someDigits_length h
    simp
    omega
  · exact someDigits_length h

theorem fractionPart_length {taken rest taken' rest' : List Char}
    (h : fractionPart taken rest = .ok (taken', rest')) : rest'.length ≤ rest.length := by
  unfold fractionPart at h
  split at h
  · have := someDigits_length h
    simp
    omega
  · cases h; exact Nat.le_refl _

theorem exponentPart_length {taken rest taken' rest' : List Char}
    (h : exponentPart taken rest = .ok (taken', rest')) : rest'.length ≤ rest.length := by
  unfold exponentPart at h
  split at h
  · cases h; exact Nat.le_refl _
  · split at h
    · split at h <;>
      · have := someDigits_length h
        simp at this ⊢
        try omega
    · cases h; exact Nat.le_refl _

theorem numberExtent_length {cs taken rest : List Char}
    (h : numberExtent cs = .ok (taken, rest)) : rest.length < cs.length := by
  unfold numberExtent at h
  simp only [bind, Except.bind] at h
  split at h
  · cases h
  · next p hp =>
    split at h
    · cases h
    · next q hq =>
      have h₁ := @integerPart_length cs p.1 p.2 hp
      have h₂ := @fractionPart_length p.1 p.2 q.1 q.2 hq
      have h₃ := exponentPart_length h
      omega

theorem wordExtent_length {word cs rest : List Char}
    (h : wordExtent word cs = .ok rest) : cs.length = word.length + rest.length := by
  induction word generalizing cs with
  | nil => cases h; simp
  | cons w word ih =>
    cases cs with
    | nil => cases h
    | cons c cs =>
      unfold wordExtent at h
      split at h
      · split at h
        · next hr =>
          cases h
          have := ih hr
          simp only [List.length_cons]
          omega
        · cases h
      · cases h

end JsonAxes.Token
